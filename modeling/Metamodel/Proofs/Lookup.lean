import Mathlib.Data.List.Nodup
import Metamodel.Notebook.Workbench
import Metamodel.Proofs.Steps

set_option autoImplicit false

/-! # Looking up on a workbench

A workbench answers questions from two places, the prior notebook and its own slots, and a slot is
either finished or a draft. `Workbench.preview` is the one notebook behind all answers: the sketches
of the prior, then those the slots stand for, drafts taken as they are. What a look-up finds is
found in the preview (`get?_of_resolve`, `get?_of_entityDefinition`, `get?_of_draft`), what a write
does it does to the preview (`get?_preview_accept`, `get?_preview_change`), and freezing publishes
just the preview (`eq_preview_of_freeze`). Invariants of a build are therefore stated about previews. -/

namespace Metamodel

namespace Named

variable {α β : Type}

/-! ## More laws of collections -/

theorem get?_append [Named α] (xs ys : List α) (n : String) :
    get? (xs ++ ys) n = (get? xs n).or (get? ys n) :=
  List.find?_append

theorem mem_of_value? {xs : List (String × β)} {n : String} {b : β} (h : value? xs n = some b) :
    (n, b) ∈ xs := by
  obtain ⟨⟨m, b'⟩, hm, rfl⟩ := Option.map_eq_some_iff.1 h
  obtain rfl : m = n := nameOf_get? hm
  exact mem_of_get? hm

theorem get?_eq_none_iff [Named α] {xs : List α} {n : String} :
    get? xs n = none ↔ n ∉ names xs := by
  simp [get?, names]

theorem mem_names_of_get? [Named α] {xs : List α} {n : String} {x : α} (h : get? xs n = some x) :
    n ∈ names xs := by
  by_contra hn
  rw [get?_eq_none_iff.2 hn] at h
  cases h

/-- Among distinct names, a thing is what is found under its name. -/
theorem get?_eq_some_iff [Named α] {xs : List α} (hd : (names xs).Nodup) {n : String} {x : α} :
    get? xs n = some x ↔ x ∈ xs ∧ nameOf x = n := by
  constructor
  · intro h
    exact ⟨mem_of_get? h, nameOf_get? h⟩
  · rintro ⟨hm, rfl⟩
    cases hg : get? xs (nameOf x) with
    | none => exact absurd (List.mem_map_of_mem hm) (get?_eq_none_iff.1 hg)
    | some y => rw [List.inj_on_of_nodup_map hd (mem_of_get? hg) hm (nameOf_get? hg)]

theorem get?_map [Named α] [Named β] {f : α → β} (hf : ∀ x, nameOf (f x) = nameOf x)
    (xs : List α) (n : String) : get? (xs.map f) n = (get? xs n).map f := by
  simp only [get?, List.find?_map, Function.comp_def, hf]

/-- A change that keeps names is seen under the changed name only. -/
theorem get?_modify [Named α] {f : α → α} (hf : ∀ x, nameOf (f x) = nameOf x) (m : String)
    (xs : List α) (n : String) :
    get? (modify m f xs) n = if n = m then (get? xs n).map f else get? xs n := by
  induction xs with
  | nil => simp [modify, get?]
  | cons y ys ih =>
    by_cases hy : nameOf y = m
    · simp only [modify, if_pos hy, get?_cons, hf]
      by_cases hn : n = m
      · simp [hn, hy]
      · have hyn : nameOf y ≠ n := fun h => hn (h.symm.trans hy)
        simp [hn, hyn]
    · simp only [modify, if_neg hy, get?_cons, ih]
      by_cases hn : n = m
      · have hyn : nameOf y ≠ n := fun h => hy (h.trans hn)
        simp [hn, hy]
      · simp [hn]

/-- A change is made at the one place where the name is found. -/
theorem modify_of_get? [Named α] {f : α → α} {n : String} {xs : List α} {x : α}
    (h : get? xs n = some x) :
    ∃ before after, xs = before ++ x :: after ∧ modify n f xs = before ++ f x :: after := by
  induction xs with
  | nil => cases h
  | cons y ys ih =>
    rw [get?_cons] at h
    by_cases hy : nameOf y = n
    · rw [if_pos hy] at h
      cases h
      exact ⟨[], ys, rfl, by rw [modify, if_pos hy, List.nil_append]⟩
    · rw [if_neg hy] at h
      obtain ⟨before, after, rfl, hmodify⟩ := ih h
      exact ⟨y :: before, after, rfl, by rw [modify, if_neg hy, hmodify, List.cons_append]⟩

end Named

namespace Notebook

/-! ## Notebooks -/

theorem get?_eq_some_iff {n : Notebook} {name : String} {s : Sketch} :
    n.get? name = some s ↔ s ∈ n.sketches ∧ s.name = name :=
  Named.get?_eq_some_iff n.distinct

theorem get?_eq_none_iff {n : Notebook} {name : String} : n.get? name = none ↔ name ∉ n.names :=
  Named.get?_eq_none_iff

theorem name_of_get? {n : Notebook} {name : String} {s : Sketch} (h : n.get? name = some s) :
    s.name = name :=
  (get?_eq_some_iff.1 h).2

theorem contains_eq_false_iff {n : Notebook} {name : String} :
    n.contains name = false ↔ n.get? name = none := by
  rw [get?_eq_none_iff, ← Bool.not_eq_true, contains, Named.has_iff, names]

theorem expectKind_eq_ok {s t : Sketch} {kind : SketchKind} :
    expectKind s kind = .ok t ↔ s = t ∧ s.kind = kind := by
  unfold expectKind
  split <;> simp_all

theorem resolve_eq_ok {n : Notebook} {name : String} {kind : SketchKind} {s : Sketch} :
    n.resolve name kind = .ok s ↔ n.get? name = some s ∧ s.kind = kind := by
  unfold resolve
  cases n.get? name with
  | none => simp
  | some t =>
    simp only [expectKind_eq_ok, Option.some.injEq]
    constructor
    · rintro ⟨rfl, h⟩
      exact ⟨rfl, h⟩
    · rintro ⟨rfl, h⟩
      exact ⟨rfl, h⟩

/-- A typed look-up succeeds if the sketch of the name is of the type. -/
theorem find_eq_ok {α : Type} {n : Notebook} {name : String} {kind : SketchKind}
    {pick : Sketch → Option α} {a : α} :
    n.find name kind pick = .ok a ↔ ∃ s, n.get? name = some s ∧ pick s = some a := by
  unfold find
  cases n.get? name with
  | none => simp
  | some s =>
    simp only [Option.some.injEq, exists_eq_left']
    cases pick s <;> simp

theorem formatter_eq_ok {n : Notebook} {name : String} {f : Formatter} :
    n.formatter name = .ok f ↔ n.get? name = some (.formatter f) := by
  rw [formatter, find_eq_ok]
  constructor
  · rintro ⟨s, hs, hp⟩
    cases s <;> simp_all [Sketch.formatter?]
  · intro h
    exact ⟨_, h, rfl⟩

theorem constraint_eq_ok {n : Notebook} {name : String} {c : Constraint} :
    n.constraint name = .ok c ↔ n.get? name = some (.constraint c) := by
  rw [constraint, find_eq_ok]
  constructor
  · rintro ⟨s, hs, hp⟩
    cases s <;> simp_all [Sketch.constraint?]
  · intro h
    exact ⟨_, h, rfl⟩

theorem entityDefinition_eq_ok {n : Notebook} {name : String} {e : EntityDefinition} :
    n.entityDefinition name = .ok e ↔ n.get? name = some (.entityDefinition e) := by
  rw [entityDefinition, find_eq_ok]
  constructor
  · rintro ⟨s, hs, hp⟩
    cases s <;> simp_all [Sketch.entityDefinition?]
  · intro h
    exact ⟨_, h, rfl⟩

end Notebook

/-! ## Previews -/

theorem EntityDraft.build_eq_ok {d : EntityDraft} {e : EntityDefinition} :
    d.build = .ok e ↔ d.violations = [] ∧ e = d.finished := by
  unfold build
  split
  · next h => simp [h, eq_comm]
  · next h => simp [h]

namespace Slot

/-- The sketch a slot stands for, a draft taken as it is. -/
def preview : Slot → Sketch
  | .finished s => s
  | .draft d => .entityDefinition d.finished

@[simp] theorem name_preview (s : Slot) : s.preview.name = s.name := by
  cases s <;> rfl

theorem preview_of_build {s : Slot} {k : Sketch} (h : s.build = .ok k) : k = s.preview := by
  cases s with
  | finished t =>
    cases h
    rfl
  | draft d =>
    simp only [build, map_eq_ok, EntityDraft.build_eq_ok] at h
    obtain ⟨_, ⟨-, rfl⟩, rfl⟩ := h
    rfl

end Slot

namespace Workbench

theorem names_map_preview (slots : List Slot) :
    Named.names (slots.map Slot.preview) = Named.names slots := by
  simp only [Named.names, List.map_map]
  exact List.map_congr_left fun s _ => s.name_preview

/-- The notebook a workbench stands for, its drafts taken as they are. -/
def preview (b : Workbench) : Notebook where
  sketches := b.prior.sketches ++ b.slots.map Slot.preview
  distinct := by
    have hb := b.distinct
    rw [Notebook.names, ← names_map_preview] at hb
    simpa [Named.names] using hb

@[simp] theorem preview_start (n : Notebook) : (start n).preview = n := by
  simp [preview, start]

theorem slot?_eq_none_of_prior {b : Workbench} {name : String} {s : Sketch}
    (h : b.prior.get? name = some s) : b.slot? name = none := by
  rw [slot?, Named.get?_eq_none_iff]
  intro hs
  exact (List.nodup_append.1 b.distinct).2.2 _ (Named.mem_names_of_get? h) _ hs rfl

theorem get?_preview (b : Workbench) (name : String) :
    b.preview.get? name = (b.prior.get? name).or ((b.slot? name).map Slot.preview) := by
  rw [Notebook.get?, preview, Named.get?_append, Named.get?_map Slot.name_preview]
  rfl

theorem get?_preview_of_prior {b : Workbench} {name : String} {s : Sketch}
    (h : b.prior.get? name = some s) : b.preview.get? name = some s := by
  rw [get?_preview, h]
  rfl

theorem get?_preview_of_slot {b : Workbench} {name : String} {s : Slot}
    (h : b.slot? name = some s) : b.preview.get? name = some s.preview := by
  rw [get?_preview, h]
  cases hp : b.prior.get? name with
  | none => rfl
  | some t =>
    rw [slot?_eq_none_of_prior hp] at h
    cases h

theorem slot?_eq_none_of_preview {b : Workbench} {name : String}
    (h : b.preview.get? name = none) : b.slot? name = none := by
  rw [get?_preview, Option.or_eq_none_iff, Option.map_eq_none_iff] at h
  exact h.2

theorem contains_eq_false_iff {b : Workbench} {name : String} :
    b.contains name = false ↔ b.preview.get? name = none := by
  rw [contains, Bool.or_eq_false_iff, Notebook.contains_eq_false_iff, get?_preview,
    ← Named.get?_isSome, Option.or_eq_none_iff, Option.map_eq_none_iff, slot?,
    Option.isSome_eq_false_iff, Option.isNone_iff_eq_none]

/-! ## Reading -/

theorem get?_of_resolve {b : Workbench} {name : String} {kind : SketchKind} {s : Sketch}
    (h : b.resolve name kind = .ok s) : b.preview.get? name = some s ∧ s.kind = kind := by
  unfold resolve at h
  split at h
  · next hs =>
    obtain ⟨rfl, hk⟩ := Notebook.expectKind_eq_ok.1 h
    exact ⟨get?_preview_of_slot hs, hk⟩
  · split at h <;> cases h
  · obtain ⟨hg, hk⟩ := Notebook.resolve_eq_ok.1 h
    exact ⟨get?_preview_of_prior hg, hk⟩

theorem get?_of_entityDefinition {b : Workbench} {name : String} {e : EntityDefinition}
    (h : b.entityDefinition name = .ok e) :
    b.preview.get? name = some (.entityDefinition e) := by
  unfold entityDefinition at h
  split at h
  · next d hs =>
    rw [mapError_eq_ok, EntityDraft.build_eq_ok] at h
    rw [get?_preview_of_slot hs, h.2, Slot.preview]
  · cases h
  · rw [mapError_eq_ok, Notebook.entityDefinition_eq_ok] at h
    exact get?_preview_of_prior h

theorem draft_eq_ok {b : Workbench} {name : String} {d : EntityDraft} :
    b.draft name = .ok d ↔ b.slot? name = some (.draft d) := by
  unfold draft
  split
  · next hs => simp [hs]
  · next hs => simp [hs]
  · next hs =>
    rw [hs]
    split <;> simp

theorem get?_of_draft {b : Workbench} {name : String} {d : EntityDraft}
    (h : b.draft name = .ok d) : b.preview.get? name = some (.entityDefinition d.finished) :=
  get?_preview_of_slot (draft_eq_ok.1 h)

/-! ## Writing -/

theorem accept_eq_ok {b b' : Workbench} {s : Slot} (h : b.accept s = .ok b') :
    b.preview.get? s.name = none ∧ b'.prior = b.prior ∧ b'.slots = b.slots ++ [s] := by
  unfold accept at h
  split at h
  · next hc =>
    cases h
    exact ⟨contains_eq_false_iff.1 hc, rfl, rfl⟩
  · cases h

theorem slot?_accept {b b' : Workbench} {s : Slot} (h : b.accept s = .ok b') (name : String) :
    b'.slot? name = if name = s.name then some s else b.slot? name := by
  obtain ⟨hnone, -, hslots⟩ := accept_eq_ok h
  have hfree : b.slot? s.name = none := slot?_eq_none_of_preview hnone
  rw [slot?, hslots, Named.get?_append, Named.get?_cons]
  by_cases hn : name = s.name
  · subst hn
    have hs : Named.nameOf s = s.name := rfl
    rw [if_pos hs, if_pos rfl, ← slot?, hfree]
    rfl
  · have hs : Named.nameOf s ≠ name := fun h => hn h.symm
    rw [if_neg hn, if_neg hs]
    exact Option.or_none

/-- A slot that is taken on is seen under its name, and all else as before. -/
theorem get?_preview_accept {b b' : Workbench} {s : Slot} (h : b.accept s = .ok b')
    (name : String) :
    b'.preview.get? name = if name = s.name then some s.preview else b.preview.get? name := by
  obtain ⟨hnone, hprior, -⟩ := accept_eq_ok h
  rw [get?_preview, slot?_accept h, hprior]
  by_cases hn : name = s.name
  · rw [get?_preview, Option.or_eq_none_iff] at hnone
    rw [if_pos hn, if_pos hn, hn, hnone.1]
    rfl
  · rw [if_neg hn, if_neg hn, get?_preview]

theorem names_preview_accept {b b' : Workbench} {s : Slot} (h : b.accept s = .ok b') :
    b'.preview.names = b.preview.names ++ [s.name] := by
  obtain ⟨-, hprior, hslots⟩ := accept_eq_ok h
  simp [Notebook.names, preview, hprior, hslots, Named.names, Named.nameOf]

theorem slot?_change (b : Workbench) (foreign : String) (c : DraftChange) (name : String) :
    (b.change foreign c).slot? name =
      if name = foreign then (b.slot? name).map (Slot.apply c) else b.slot? name :=
  Named.get?_modify (Slot.nameOf_apply c) foreign b.slots name

/-- A change to a draft is seen under its name, and all else as before. -/
theorem get?_preview_change {b : Workbench} {foreign : String} {d : EntityDraft}
    (hd : b.slot? foreign = some (.draft d)) (c : DraftChange) (name : String) :
    (b.change foreign c).preview.get? name =
      if name = foreign then some (.entityDefinition (d.apply c).finished)
      else b.preview.get? name := by
  by_cases hn : name = foreign
  · subst hn
    rw [if_pos rfl, get?_preview_of_slot (s := .draft (d.apply c))]
    · rfl
    · rw [slot?_change, if_pos rfl, hd]
      rfl
  · rw [get?_preview, get?_preview, slot?_change, if_neg hn, if_neg hn]
    rfl

theorem names_preview_change (b : Workbench) (foreign : String) (c : DraftChange) :
    (b.change foreign c).preview.names = b.preview.names := by
  have hslots := Named.names_modify (Slot.nameOf_apply c) foreign b.slots
  rw [← names_map_preview, ← names_map_preview b.slots] at hslots
  simp only [Notebook.names, preview, Named.names, List.map_append] at hslots ⊢
  rw [← hslots]
  rfl

/-! ## Freezing -/

/-- Slots are built if each of them is, to the sketches that they stand for. -/
theorem buildAll_eq_ok {slots : List Slot} {ks : List Sketch} :
    buildAll slots = .ok ks ↔
      (∀ s ∈ slots, s.build = .ok s.preview) ∧ ks = slots.map Slot.preview := by
  induction slots generalizing ks with
  | nil => simp [buildAll, eq_comm]
  | cons s rest ih =>
    rw [buildAll, List.forall_mem_cons, List.map_cons]
    cases hs : s.build with
    | error e => simp
    | ok k =>
      obtain rfl := Slot.preview_of_build hs
      simp only [map_eq_ok, ih, true_and]
      constructor
      · rintro ⟨ks, ⟨hrest, rfl⟩, rfl⟩
        exact ⟨hrest, rfl⟩
      · rintro ⟨hrest, rfl⟩
        exact ⟨_, ⟨hrest, rfl⟩, rfl⟩

/-- What is published is the preview, if all slots can be built. -/
theorem publish_eq_ok {b : Workbench} {n : Notebook} :
    b.publish = .ok n ↔ (∀ s ∈ b.slots, s.build = .ok s.preview) ∧ n = b.preview := by
  unfold publish
  split
  · next e he =>
    refine iff_of_false (by simp) ?_
    rintro ⟨hall, -⟩
    rw [buildAll_eq_ok.2 ⟨hall, rfl⟩] at he
    cases he
  · next ks hks =>
    obtain ⟨hall, hpreview⟩ := buildAll_eq_ok.1 hks
    subst hpreview
    rw [Except.ok.injEq, eq_comm]
    exact ⟨fun h => ⟨hall, h⟩, And.right⟩

/-- Freezing publishes, if no domain of objects lacks its entity definition. -/
theorem freeze_eq_ok {b : Workbench} {n : Notebook} :
    b.freeze = .ok n ↔ b.publish = .ok n ∧ danglingDomains n = [] := by
  unfold freeze
  cases b.publish with
  | error e => simp
  | ok m =>
    dsimp only
    cases hd : danglingDomains m with
    | nil =>
      constructor
      · intro h
        cases h
        exact ⟨rfl, hd⟩
      · rintro ⟨h, -⟩
        cases h
        rfl
    | cons d ds =>
      refine iff_of_false (by simp) ?_
      rintro ⟨h, hnone⟩
      rw [← Except.ok.inj h, hd] at hnone
      cases hnone

/-- Freezing gives the preview, in which no domain of objects lacks its entity definition. -/
theorem eq_preview_of_freeze {b : Workbench} {n : Notebook} (h : b.freeze = .ok n) :
    n = b.preview ∧ danglingDomains n = [] := by
  obtain ⟨hpublish, hd⟩ := freeze_eq_ok.1 h
  exact ⟨(publish_eq_ok.1 hpublish).2, hd⟩

end Workbench

end Metamodel
