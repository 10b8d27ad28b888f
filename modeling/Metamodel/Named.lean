set_option autoImplicit false

/-! # Collections of named things

Grammars, definitions, repositories and notebooks all keep things under names: at most one thing
per name, in the order in which the names first came. A collection is a plain list, read through
`Named.get?` and written through `Named.put`, which replaces the thing of the same name where it
stands and otherwise adds at the end. `Named.extend` is the counterpart for lists of values under a
name: later values join the earlier ones.

The laws below say what each operation does to the names (`names_put`, `names_extend`) and to what
is found under a name (`get?_put`, `value?_extend`); nothing else about the operations is used. -/

namespace Metamodel

/-- A type whose values carry the name they are kept under. -/
class Named (α : Type) where
  /-- The name a value is kept under. -/
  nameOf : α → String

/-- A value paired with its name is kept under that name. -/
instance {α : Type} : Named (String × α) := ⟨Prod.fst⟩

namespace Named

variable {α β : Type}

/-! ## Reading -/

/-- The names of a collection, in its order. -/
def names [Named α] (xs : List α) : List String := xs.map nameOf

/-- The thing kept under a name. -/
def get? [Named α] (xs : List α) (n : String) : Option α := xs.find? (nameOf · == n)

/-- Whether anything is kept under a name. -/
def has [Named α] (xs : List α) (n : String) : Bool := xs.any (nameOf · == n)

/-- The value paired with a name. -/
def value? (xs : List (String × β)) (n : String) : Option β := (get? xs n).map Prod.snd

/-! ## Writing -/

/-- Keeps `x` under its name: in place of the thing of that name, else at the end. -/
def put [Named α] (x : α) : List α → List α
  | [] => [x]
  | y :: ys => if nameOf y = nameOf x then x :: ys else y :: put x ys

/-- Changes the thing kept under a name, where it stands. -/
def modify [Named α] (n : String) (f : α → α) : List α → List α
  | [] => []
  | y :: ys => if nameOf y = n then f y :: ys else y :: modify n f ys

/-- Adds values after those already kept under a name; a new name goes to the end. -/
def extend (n : String) (vs : List β) : List (String × List β) → List (String × List β)
  | [] => [(n, vs)]
  | (m, us) :: rest => if m = n then (m, us ++ vs) :: rest else (m, us) :: extend n vs rest

/-- Two collections that keep equal things under equal names, whatever their order. -/
def sameBy (eq : β → β → Bool) (xs ys : List (String × β)) : Bool :=
  xs.length == ys.length &&
    xs.all fun x => match value? ys x.1 with
      | some y => eq x.2 y
      | none => false

/-! ## Laws -/

@[simp] theorem nameOf_pair (n : String) (b : β) : nameOf (n, b) = n := rfl

theorem has_iff [Named α] {xs : List α} {n : String} : has xs n = true ↔ n ∈ names xs := by
  simp [has, names]

theorem get?_isSome [Named α] (xs : List α) (n : String) : (get? xs n).isSome = has xs n := by
  simp [get?, has, List.isSome_find?]

theorem nameOf_get? [Named α] {xs : List α} {n : String} {x : α} (h : get? xs n = some x) :
    nameOf x = n := by
  simpa using List.find?_some h

theorem mem_of_get? [Named α] {xs : List α} {n : String} {x : α} (h : get? xs n = some x) :
    x ∈ xs :=
  List.mem_of_find?_eq_some h

theorem get?_cons [Named α] (x : α) (xs : List α) (n : String) :
    get? (x :: xs) n = if nameOf x = n then some x else get? xs n := by
  by_cases h : nameOf x = n
  · simp [get?, h]
  · have h' : (nameOf x == n) = false := by simpa using h
    simp [get?, h, h']

/-- After a write, the written thing is found under its name and all else as before. -/
theorem get?_put [Named α] (x : α) (xs : List α) (n : String) :
    get? (put x xs) n = if nameOf x = n then some x else get? xs n := by
  induction xs with
  | nil => simp [put, get?_cons]
  | cons y ys ih =>
    by_cases h : nameOf y = nameOf x
    · have hput : put x (y :: ys) = x :: ys := by simp [put, h]
      rw [hput, get?_cons, get?_cons, h]
      by_cases hx : nameOf x = n <;> simp [hx]
    · simp only [put, if_neg h, get?_cons, ih]
      by_cases hy : nameOf y = n
      · have hx : nameOf x ≠ n := fun e => h (hy.trans e.symm)
        simp [hy, hx]
      · simp [hy]

/-- A write under a new name adds at the end. -/
theorem put_of_not_mem [Named α] {x : α} {xs : List α} (h : nameOf x ∉ names xs) :
    put x xs = xs ++ [x] := by
  induction xs with
  | nil => rfl
  | cons y ys ih =>
    simp only [names, List.map_cons, List.mem_cons, not_or] at h
    rw [put, if_neg (Ne.symm h.1), ih h.2, List.cons_append]

/-- A write adds its name at the end, unless the name is there already. -/
theorem names_put [Named α] (x : α) (xs : List α) :
    names (put x xs) = if nameOf x ∈ names xs then names xs else names xs ++ [nameOf x] := by
  induction xs with
  | nil => simp [put, names]
  | cons y ys ih =>
    by_cases h : nameOf y = nameOf x
    · simp [put, h, names]
    · have h' : nameOf x ≠ nameOf y := fun e => h e.symm
      simp only [names, put, if_neg h, List.map_cons, List.mem_cons, h', false_or] at ih ⊢
      rw [ih]
      split <;> simp_all

/-- Writing keeps names distinct. -/
theorem nodup_names_put [Named α] (x : α) {xs : List α} (h : (names xs).Nodup) :
    (names (put x xs)).Nodup := by
  rw [names_put]
  split
  · exact h
  · rename_i hx
    simp only [List.nodup_append, h, List.nodup_cons, List.not_mem_nil, not_false_eq_true,
      List.nodup_nil, and_self, List.mem_singleton, true_and]
    rintro a ha b rfl rfl
    exact hx ha

/-- A change that keeps the name keeps all names. -/
theorem names_modify [Named α] {f : α → α} (hf : ∀ x, nameOf (f x) = nameOf x) (n : String)
    (xs : List α) : names (modify n f xs) = names xs := by
  induction xs with
  | nil => rfl
  | cons y ys ih =>
    by_cases h : nameOf y = n
    · simp [modify, h, names, hf]
    · simpa [modify, h, names] using ih

/-- Extending adds its name at the end, unless the name is there already. -/
theorem names_extend (n : String) (vs : List β) (xs : List (String × List β)) :
    names (extend n vs xs) = if n ∈ names xs then names xs else names xs ++ [n] := by
  induction xs with
  | nil => simp [extend, names, nameOf]
  | cons y ys ih =>
    obtain ⟨m, us⟩ := y
    by_cases h : m = n
    · simp [extend, h, names, nameOf]
    · have h' : n ≠ m := fun e => h e.symm
      simp only [names, nameOf, extend, if_neg h, List.map_cons, List.mem_cons, h', false_or]
        at ih ⊢
      rw [ih]
      split <;> simp_all

theorem value?_cons (x : String × β) (xs : List (String × β)) (n : String) :
    value? (x :: xs) n = if x.1 = n then some x.2 else value? xs n := by
  simp only [value?, get?_cons, nameOf]
  by_cases h : x.1 = n <;> simp [h]

/-- Extending joins the new values to those found under the name and leaves the rest alone. -/
theorem value?_extend (n : String) (vs : List β) (xs : List (String × List β)) (m : String) :
    value? (extend n vs xs) m =
      if n = m then some ((value? xs n).getD [] ++ vs) else value? xs m := by
  induction xs with
  | nil => by_cases h : n = m <;> simp [extend, value?, get?, h]
  | cons y ys ih =>
    obtain ⟨k, us⟩ := y
    by_cases h : k = n
    · subst h
      by_cases hm : k = m <;> simp [extend, value?_cons, hm]
    · simp only [extend, if_neg h, value?_cons, ih]
      by_cases hk : k = m
      · have hn : n ≠ m := fun e => h (hk.trans e.symm)
        simp [hk, hn]
      · simp [hk]

end Named

end Metamodel
