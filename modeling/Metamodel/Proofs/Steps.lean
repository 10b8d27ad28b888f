import Mathlib.Data.List.Forall2
import Metamodel.Error

set_option autoImplicit false

/-! # Steps that succeed

Most of a build is a chain of steps each of which may fail. These laws take a chain that succeeded
apart into its steps, each with the result it gave, so that proofs never unfold the plumbing. -/

namespace Metamodel

variable {ε δ α β : Type}

@[simp] theorem pure_eq_ok {a b : α} : (pure a : Except ε α) = .ok b ↔ a = b := by
  simp [pure, Except.pure]

theorem ok_bind (a : α) (f : α → Except ε β) : (Except.ok a >>= f) = f a := rfl

/-- A chain succeeds if its first step does and then the rest. -/
@[simp] theorem bind_eq_ok {x : Except ε α} {f : α → Except ε β} {b : β} :
    (x >>= f) = .ok b ↔ ∃ a, x = .ok a ∧ f a = .ok b := by
  cases x <;> simp [bind, Except.bind]

@[simp] theorem map_eq_ok {x : Except ε α} {f : α → β} {b : β} :
    Except.map f x = .ok b ↔ ∃ a, x = .ok a ∧ f a = b := by
  cases x <;> simp [Except.map]

@[simp] theorem functorMap_eq_ok {x : Except ε α} {f : α → β} {b : β} :
    f <$> x = .ok b ↔ ∃ a, x = .ok a ∧ f a = b :=
  map_eq_ok

@[simp] theorem mapError_eq_ok {x : Except ε α} {f : ε → δ} {a : α} :
    x.mapError f = .ok a ↔ x = .ok a := by
  cases x <;> simp [Except.mapError]

@[simp] theorem discard_eq_ok {x : Except ε α} {u : Unit} :
    discard x = .ok u ↔ ∃ a, x = .ok a := by
  cases x <;> simp [discard, Functor.mapConst, Except.map]

@[simp] theorem liftSketch_eq_ok {x : Except SketchError α} {a : α} :
    (liftM x : Except ModelError α) = .ok a ↔ x = .ok a :=
  mapError_eq_ok

@[simp] theorem liftNotebook_eq_ok {x : Except NotebookError α} {a : α} :
    (liftM x : Except ModelError α) = .ok a ↔ x = .ok a :=
  mapError_eq_ok

/-- A step that fails under a condition is passed only without it. -/
@[simp] theorem guard_eq_ok {p : Prop} [Decidable p] {e : ε} {f : Unit → Except ε β} {b : β} :
    (if p then Except.error e >>= f else f ()) = .ok b ↔ ¬p ∧ f () = .ok b := by
  split <;> simp_all

/-- A list of steps succeeds if each one does. -/
theorem mapM_eq_ok {f : α → Except ε β} {xs : List α} {ys : List β} :
    xs.mapM f = .ok ys ↔ List.Forall₂ (fun x y => f x = .ok y) xs ys := by
  induction xs generalizing ys with
  | nil =>
    simp only [List.mapM_nil, pure_eq_ok, List.forall₂_nil_left_iff]
    exact eq_comm
  | cons x xs ih =>
    simp only [List.mapM_cons, bind_eq_ok, pure_eq_ok, ih, List.forall₂_cons_left_iff]
    constructor
    · rintro ⟨y, hy, ys, hys, rfl⟩
      exact ⟨y, ys, hy, hys, rfl⟩
    · rintro ⟨y, ys, hy, hys, rfl⟩
      exact ⟨y, hy, ys, hys, rfl⟩

/-- Each result of a list of steps is the result of one of them. -/
theorem exists_of_mem_mapM {f : α → Except ε β} {xs : List α} {ys : List β}
    (h : xs.mapM f = .ok ys) {y : β} (hy : y ∈ ys) : ∃ x ∈ xs, f x = .ok y := by
  rw [mapM_eq_ok] at h
  induction h with
  | nil => cases hy
  | cons hxy _ ih =>
    rcases List.mem_cons.1 hy with rfl | hy
    · exact ⟨_, List.mem_cons_self, hxy⟩
    · obtain ⟨x, hx, hxy⟩ := ih hy
      exact ⟨x, List.mem_cons_of_mem _ hx, hxy⟩

/-- Each step of a list that succeeds does. -/
theorem exists_eq_ok_of_mem {f : α → Except ε β} {xs : List α} {ys : List β}
    (h : xs.mapM f = .ok ys) {x : α} (hx : x ∈ xs) : ∃ y, f x = .ok y := by
  rw [mapM_eq_ok] at h
  induction h with
  | nil => cases hx
  | cons hxy _ ih =>
    rcases List.mem_cons.1 hx with rfl | hx
    · exact ⟨_, hxy⟩
    · exact ih hx

/-- Steps that keep some part of what they are given keep it in a list. -/
theorem map_eq_map_of_mapM {γ : Type} {f : α → Except ε β} {xs : List α} {ys : List β}
    {part : α → γ} {part' : β → γ} (h : xs.mapM f = .ok ys)
    (hf : ∀ x y, f x = .ok y → part' y = part x) : ys.map part' = xs.map part := by
  rw [mapM_eq_ok] at h
  induction h with
  | nil => rfl
  | cons hxy _ ih => rw [List.map_cons, List.map_cons, hf _ _ hxy, ih]

/-- A list of checks succeeds if each one does. -/
theorem forM_eq_ok {f : α → Except ε Unit} {xs : List α} {u : Unit} :
    xs.forM f = .ok u ↔ ∀ x ∈ xs, f x = .ok () := by
  induction xs with
  | nil => simp
  | cons x xs ih =>
    rw [List.forM, bind_eq_ok, List.forall_mem_cons, ← ih]
    constructor
    · rintro ⟨⟨⟩, hx, hxs⟩
      exact ⟨hx, hxs⟩
    · rintro ⟨hx, hxs⟩
      exact ⟨(), hx, hxs⟩

/-- What each step gives, another list of steps gives whose steps give at least that. -/
theorem mapM_mono {f g : α → Except ε β} {xs : List α} {ys : List β} (hf : xs.mapM f = .ok ys)
    (h : ∀ x ∈ xs, ∀ y, f x = .ok y → g x = .ok y) : xs.mapM g = .ok ys := by
  induction xs generalizing ys with
  | nil => exact hf
  | cons x xs ih =>
    simp only [List.mapM_cons, bind_eq_ok, pure_eq_ok] at hf ⊢
    obtain ⟨y, hy, ys, hys, rfl⟩ := hf
    exact ⟨y, h x List.mem_cons_self y hy, ys,
      ih hys fun z hz => h z (List.mem_cons_of_mem x hz), rfl⟩

/-- A run through a list passes each element of it. -/
theorem foldlM_append_cons_eq_ok {f : β → α → Except ε β} {xs ys : List α} {x : α} {b b' : β} :
    (xs ++ x :: ys).foldlM f b = .ok b' ↔
      ∃ c c', xs.foldlM f b = .ok c ∧ f c x = .ok c' ∧ ys.foldlM f c' = .ok b' := by
  simp only [List.foldlM_append, List.foldlM_cons, bind_eq_ok]
  constructor
  · rintro ⟨c, hc, c', hc', h⟩
    exact ⟨c, c', hc, hc', h⟩
  · rintro ⟨c, c', hc, hc', h⟩
    exact ⟨c, hc, c', hc', h⟩

/-- Two lists of steps that agree step by step where they succeed give the same. -/
theorem mapM_congr {f g : α → Except ε β} {xs : List α} {ys zs : List β}
    (hf : xs.mapM f = .ok ys) (hg : xs.mapM g = .ok zs)
    (h : ∀ x y z, f x = .ok y → g x = .ok z → y = z) : ys = zs := by
  rw [mapM_eq_ok] at hf hg
  induction hf generalizing zs with
  | nil =>
    cases hg
    rfl
  | cons hxy _ ih =>
    cases hg with
    | cons hxz hrest => rw [h _ _ _ hxy hxz, ih hrest]

/-- Two lists of steps that do the same one by one do the same. -/
theorem mapM_congr_of_forall₂ {γ : Type} {f : α → Except ε β} {g : γ → Except ε β} {xs : List α}
    {ys : List γ} (h : List.Forall₂ (fun x y => f x = g y) xs ys) : xs.mapM f = ys.mapM g := by
  induction h with
  | nil => rfl
  | cons hxy _ ih => rw [List.mapM_cons, List.mapM_cons, hxy, ih]

/-! ## Steps that fail -/

/-- A step that does not succeed fails. -/
theorem exists_eq_error {x : Except ε α} (h : ∀ a, x ≠ .ok a) : ∃ e, x = .error e := by
  cases x with
  | error e => exact ⟨e, rfl⟩
  | ok a => exact absurd rfl (h a)

/-- A list of checks that fails has the error of one of them. -/
theorem exists_of_forM_eq_error {f : α → Except ε Unit} {xs : List α} {e : ε}
    (h : xs.forM f = .error e) : ∃ x ∈ xs, f x = .error e := by
  induction xs with
  | nil => cases h
  | cons x xs ih =>
    rw [List.forM] at h
    cases hx : f x with
    | error e' =>
      rw [hx] at h
      cases h
      exact ⟨x, List.mem_cons_self, hx⟩
    | ok u =>
      rw [hx] at h
      obtain ⟨y, hy, hfail⟩ := ih h
      exact ⟨y, List.mem_cons_of_mem x hy, hfail⟩

/-- A list of checks one of which does not pass fails, with the error of one of them. -/
theorem exists_forM_eq_error {f : α → Except ε Unit} {xs : List α} (h : ¬∀ x ∈ xs, f x = .ok ()) :
    ∃ x ∈ xs, ∃ e, f x = .error e ∧ xs.forM f = .error e := by
  obtain ⟨e, he⟩ := exists_eq_error (x := xs.forM f) fun _ hu => h (forM_eq_ok.1 hu)
  obtain ⟨x, hx, hfail⟩ := exists_of_forM_eq_error he
  exact ⟨x, hx, e, hfail, he⟩

/-- A chain fails if its first step does, or else the rest. -/
theorem bind_eq_error {x : Except ε α} {f : α → Except ε β} {e : ε} :
    (x >>= f) = .error e ↔ x = .error e ∨ ∃ a, x = .ok a ∧ f a = .error e := by
  cases x <;> simp [bind, Except.bind]

theorem map_eq_error {x : Except ε α} {f : α → β} {e : ε} :
    Except.map f x = .error e ↔ x = .error e := by
  cases x <;> simp [Except.map]

theorem mapError_eq_error {x : Except ε α} {f : ε → δ} {e : δ} :
    x.mapError f = .error e ↔ ∃ e', x = .error e' ∧ f e' = e := by
  cases x <;> simp [Except.mapError]

/-- A list of steps that fails has the error of one of them. -/
theorem exists_of_mapM_eq_error {f : α → Except ε β} {xs : List α} {e : ε}
    (h : xs.mapM f = .error e) : ∃ x ∈ xs, f x = .error e := by
  induction xs with
  | nil => cases h
  | cons x xs ih =>
    rw [List.mapM_cons] at h
    rcases bind_eq_error.1 h with hx | ⟨y, -, h⟩
    · exact ⟨x, List.mem_cons_self, hx⟩
    · rcases bind_eq_error.1 h with hxs | ⟨ys, -, h⟩
      · obtain ⟨z, hz, hfail⟩ := ih hxs
        exact ⟨z, List.mem_cons_of_mem x hz, hfail⟩
      · cases h

/-- The step fails with the first of these errors, or succeeds if there are none. -/
inductive Reports : Except ε α → List ε → Prop
  | ok (a : α) : Reports (.ok a) []
  | error (e : ε) (more : List ε) : Reports (.error e) (e :: more)

namespace Reports

theorem eq_error_iff {x : Except ε α} {errors : List ε} (h : Reports x errors) {e : ε} :
    x = .error e ↔ errors.head? = some e := by
  cases h <;> simp

theorem exists_eq_ok_iff {x : Except ε α} {errors : List ε} (h : Reports x errors) :
    (∃ a, x = .ok a) ↔ errors = [] := by
  cases h <;> simp

/-- The errors of a chain are those of its first step and then those of the rest. -/
theorem bind {x : Except ε α} {f : α → Except ε β} {errors more : List ε} (hx : Reports x errors)
    (hf : ∀ a, x = .ok a → Reports (f a) more) : Reports (x >>= f) (errors ++ more) := by
  cases hx with
  | ok a => exact hf a rfl
  | error e rest => exact error e (rest ++ more)

theorem bind_pure {x : Except ε α} {errors : List ε} (hx : Reports x errors) (f : α → β) :
    Reports (x >>= fun a => pure (f a)) errors := by
  have h := hx.bind fun a _ => ok (f a)
  rwa [List.append_nil] at h

end Reports

/-- The step does not fail with such an error. -/
def Avoids (p : ε → Prop) (x : Except ε α) : Prop := ∀ e, x = .error e → ¬p e

namespace Avoids

variable {p : ε → Prop}

theorem ok (a : α) : Avoids p (.ok a) := by
  rintro e ⟨⟩

theorem pure (a : α) : Avoids p (Pure.pure a) := ok a

theorem error {e : ε} (h : ¬p e) : Avoids p (.error e : Except ε α) := by
  rintro _ ⟨⟩
  exact h

theorem bind {x : Except ε α} {f : α → Except ε β} (hx : Avoids p x) (hf : ∀ a, Avoids p (f a)) :
    Avoids p (x >>= f) := by
  cases x with
  | error e => exact error (hx e rfl)
  | ok a => exact hf a

theorem map {x : Except ε α} {f : α → β} (hx : Avoids p x) : Avoids p (x.map f) := by
  cases x with
  | error e => exact error (hx e rfl)
  | ok a => exact ok (f a)

theorem mapM {f : α → Except ε β} {xs : List α} (h : ∀ x ∈ xs, Avoids p (f x)) :
    Avoids p (xs.mapM f) := by
  induction xs with
  | nil => exact pure []
  | cons x xs ih =>
    rw [List.mapM_cons]
    exact bind (h x List.mem_cons_self) fun y =>
      bind (ih fun z hz => h z (List.mem_cons_of_mem x hz)) fun ys => pure (y :: ys)

end Avoids

end Metamodel
