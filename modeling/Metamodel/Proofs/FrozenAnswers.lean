import Mathlib.Data.List.Induction
import Metamodel.Proofs.Lookup

set_option autoImplicit false

/-! # A workbench answers as the frozen notebook will

Sketches and drafts are handed over to a workbench, drafts get changes, and in the end it is frozen.
`Workbench.worked` is what a sequence of such acts makes of a new workbench. If freezing succeeds,
the workbench has answered before as the notebook does after (`answers_of_freeze`), because both are
read off the preview and freezing has built every draft.

Two answers differ. A draft is not resolved as an entity definition before it is frozen. And an
entity definition that was handed over finished, not as a draft, is never found by
`Workbench.entityDefinition`, though the frozen notebook has it
(`not_found_of_finishedPerson`). -/

namespace Metamodel

/-- What is done to a workbench: a sketch or draft is handed over, or the draft of a name changed. -/
inductive Act
  | accept (s : Slot)
  | contribute (name : String) (c : DraftChange)

namespace Workbench

/-! ## Working on a workbench -/

/-- The workbench after an act. What has a name that is taken is refused, and there is nothing to
change under a name that no draft has. -/
def act (b : Workbench) : Act → Workbench
  | .accept s => match b.accept s with
    | .ok b' => b'
    | .error _ => b
  | .contribute name c => b.change name c

/-- What some acts make of a new workbench. -/
def worked (prior : Notebook) (acts : List Act) : Workbench := acts.foldl act (start prior)

/-- What stands finished on a workbench after an act did so before, or has been handed over. -/
theorem slot?_act {b : Workbench} {a : Act} {name : String} {s : Sketch}
    (h : (b.act a).slot? name = some (.finished s)) :
    b.slot? name = some (.finished s) ∨ a = .accept (.finished s) ∧ s.name = name := by
  cases a with
  | accept t =>
    rw [act] at h
    split at h
    · next b' hb =>
      rw [slot?_accept hb] at h
      split at h
      · next hname =>
        cases h
        exact .inr ⟨rfl, hname.symm⟩
      · exact .inl h
    · exact .inl h
  | contribute foreign c =>
    rw [act, slot?_change] at h
    split at h
    · -- A change leaves drafts drafts, so the slot was finished before.
      obtain ⟨t, ht, happly⟩ := Option.map_eq_some_iff.1 h
      cases t with
      | finished t =>
        cases happly
        exact .inl ht
      | draft d => cases happly
    · exact .inl h

/-- What stands finished on a workbench has been handed over so. -/
theorem accepted_of_slot? {prior : Notebook} {acts : List Act} {name : String} {s : Sketch}
    (h : (worked prior acts).slot? name = some (.finished s)) :
    .accept (.finished s) ∈ acts ∧ s.name = name := by
  induction acts using List.reverseRecOn with
  | nil => cases h
  | append_singleton acts a ih =>
    rw [worked, List.foldl_append] at h
    rcases slot?_act h with hbefore | ⟨rfl, hname⟩
    · obtain ⟨hmem, hname⟩ := ih hbefore
      exact ⟨List.mem_append_left _ hmem, hname⟩
    · exact ⟨List.mem_append_right _ List.mem_cons_self, hname⟩

/-! ## Answers -/

/-- A draft stands under the name. -/
def IsOpen (b : Workbench) (name : String) : Prop := ∃ d, b.slot? name = some (.draft d)

section Answers

variable {b : Workbench} {n : Notebook} {name : String}

theorem get?_preview_of_slot?_eq_none (h : b.slot? name = none) :
    b.preview.get? name = b.prior.get? name := by
  rw [get?_preview, h]
  exact Option.or_none

theorem contains_preview (b : Workbench) (name : String) :
    b.contains name = b.preview.contains name := by
  rw [Bool.eq_iff_iff, ← not_iff_not, Bool.not_eq_true, Bool.not_eq_true, contains_eq_false_iff,
    Notebook.contains_eq_false_iff]

/-- Resolving reads the preview, except for drafts taken as entity definitions. -/
theorem resolve_preview {kind : SketchKind} (h : ¬(b.IsOpen name ∧ kind = .entityDefinition)) :
    b.resolve name kind = b.preview.resolve name kind := by
  rw [resolve]
  cases hs : b.slot? name with
  | none =>
    dsimp only
    rw [Notebook.resolve, Notebook.resolve, get?_preview_of_slot?_eq_none hs]
  | some s =>
    have hget := get?_preview_of_slot hs
    cases s with
    | finished s =>
      dsimp only
      rw [Notebook.resolve, hget]
      rfl
    | draft d =>
      have hkind : kind ≠ .entityDefinition := fun hk => h ⟨⟨d, hs⟩, hk⟩
      have hname : (Sketch.entityDefinition d.finished).name = name := Named.nameOf_get? hs
      dsimp only
      rw [if_neg hkind, Notebook.resolve, hget]
      dsimp only [Slot.preview]
      rw [Notebook.expectKind, if_neg fun hk => hkind hk.symm, hname]
      rfl

theorem resolve_of_isOpen (h : b.IsOpen name) :
    b.resolve name .entityDefinition = .error (.stillOpen name) := by
  obtain ⟨d, hd⟩ := h
  rw [resolve, hd]
  rfl

/-- Freezing has built every draft. -/
theorem build_of_freeze (h : b.freeze = .ok n) {d : EntityDraft}
    (hd : b.slot? name = some (.draft d)) : d.build = .ok d.finished := by
  have hbuild := (publish_eq_ok.1 (freeze_eq_ok.1 h).1).1 _ (Named.mem_of_get? hd)
  rw [Slot.build, map_eq_ok] at hbuild
  obtain ⟨e, he, hfinished⟩ := hbuild
  cases hfinished
  exact he

/-- The entity definition of a name is the one that the frozen notebook has, unless it was finished
when it was handed over. -/
theorem entityDefinition_iff_of_freeze (h : b.freeze = .ok n)
    (hs : ∀ e, b.slot? name ≠ some (.finished (.entityDefinition e))) (e : EntityDefinition) :
    b.entityDefinition name = .ok e ↔ n.entityDefinition name = .ok e := by
  obtain ⟨rfl, -⟩ := eq_preview_of_freeze h
  refine ⟨fun he => Notebook.entityDefinition_eq_ok.2 (get?_of_entityDefinition he), fun he => ?_⟩
  rw [Notebook.entityDefinition_eq_ok] at he
  rw [entityDefinition]
  cases hslot : b.slot? name with
  | none =>
    rw [get?_preview_of_slot?_eq_none hslot] at he
    simpa [Notebook.entityDefinition_eq_ok] using he
  | some s =>
    rw [get?_preview_of_slot hslot] at he
    cases s with
    | finished s =>
      cases he
      exact absurd hslot (hs e)
    | draft d =>
      cases he
      simpa using build_of_freeze h hslot

theorem entityDefinition_of_finished {e : EntityDefinition}
    (hs : b.slot? name = some (.finished (.entityDefinition e))) :
    b.entityDefinition name =
      .error (.notebook (.wrongKind name .entityDefinition .entityDefinition)) := by
  have hname : e.name = name := Named.nameOf_get? hs
  rw [entityDefinition, hs]
  show Except.error (ModelError.notebook (.wrongKind e.name _ _)) = _
  rw [hname]
  rfl

end Answers

/-- **A workbench answers as the frozen notebook will.** Whatever has been handed over and changed,
if freezing succeeds then the workbench knows the same names as the notebook and resolves them alike,
except that a draft is still open as an entity definition. It finds the same entity definitions under
a name, unless one stands there that was handed over finished: the notebook has it, and the workbench
denies that it is an entity definition. -/
theorem answers_of_freeze (prior : Notebook) (acts : List Act) {n : Notebook}
    (h : (worked prior acts).freeze = .ok n) (name : String) :
    (worked prior acts).contains name = n.contains name ∧
      (∀ kind, ¬((worked prior acts).IsOpen name ∧ kind = .entityDefinition) →
        (worked prior acts).resolve name kind = n.resolve name kind) ∧
      ((worked prior acts).IsOpen name →
        (worked prior acts).resolve name .entityDefinition = .error (.stillOpen name)) ∧
      ((∀ e, (worked prior acts).slot? name ≠ some (.finished (.entityDefinition e))) →
        ∀ e, (worked prior acts).entityDefinition name = .ok e ↔
          n.entityDefinition name = .ok e) ∧
      ∀ e, (worked prior acts).slot? name = some (.finished (.entityDefinition e)) →
        .accept (.finished (.entityDefinition e)) ∈ acts ∧
          n.entityDefinition name = .ok e ∧
          (worked prior acts).entityDefinition name =
            .error (.notebook (.wrongKind name .entityDefinition .entityDefinition)) := by
  obtain ⟨hpreview, -⟩ := eq_preview_of_freeze h
  refine ⟨?_, ?_, resolve_of_isOpen, entityDefinition_iff_of_freeze h, ?_⟩
  · rw [hpreview]
    exact contains_preview _ name
  · intro kind hkind
    rw [hpreview]
    exact resolve_preview hkind
  · intro e hs
    refine ⟨(accepted_of_slot? hs).1, ?_, entityDefinition_of_finished hs⟩
    rw [hpreview, Notebook.entityDefinition_eq_ok]
    exact get?_preview_of_slot hs

/-- A person, identified by a number. -/
def person : EntityDraft := { EntityDraft.empty "Person" with ids := [⟨"perId", "Id", "DoId"⟩] }

/-- A person is handed over as a draft and gets a name; a second person is refused, and a formatter
stays as it is. -/
def draftedPerson : List Act :=
  [.accept (.draft person), .accept (.finished (.formatter ⟨"FmtName", none, "Upper", none⟩)),
    .accept (.finished (.entityDefinition person.finished)),
    .contribute "Person" (.addData ⟨"name", "Name", "DoName", .one, .own none⟩),
    .contribute "FmtName" (.sort "name")]

theorem answers_of_freeze_draftedPerson :
    ∃ n, (worked .empty draftedPerson).freeze = .ok n ∧ n.names = ["Person", "FmtName"] ∧
      (worked .empty draftedPerson).contains "Person" = n.contains "Person" ∧
      (worked .empty draftedPerson).resolve "Person" .domain = n.resolve "Person" .domain ∧
      (worked .empty draftedPerson).resolve "Person" .entityDefinition =
        .error (.stillOpen "Person") ∧
      ∀ e, (worked .empty draftedPerson).entityDefinition "Person" = .ok e ↔
        n.entityDefinition "Person" = .ok e := by
  have hfreeze : Notebook.names <$> (worked .empty draftedPerson).freeze =
      .ok ["Person", "FmtName"] := by
    decide +kernel
  obtain ⟨n, hn, hnames⟩ := functorMap_eq_ok.1 hfreeze
  have hslot : ∃ d, (worked .empty draftedPerson).slot? "Person" = some (.draft d) := by
    refine ⟨person.addData ⟨"name", "Name", "DoName", .one, .own none⟩, ?_⟩
    decide +kernel
  obtain ⟨hcontains, hresolve, hopen, hdefinition, -⟩ :=
    answers_of_freeze .empty draftedPerson hn "Person"
  refine ⟨n, hn, hnames, hcontains, hresolve .domain (fun h => nomatch h.2), hopen hslot,
    hdefinition ?_⟩
  intro e he
  obtain ⟨d, hd⟩ := hslot
  cases hd.symm.trans he

/-- An entity definition that is handed over finished is in the frozen notebook, but the workbench
does not find it. -/
theorem not_found_of_finishedPerson :
    ∃ n, (worked .empty [.accept (.finished (.entityDefinition person.finished))]).freeze = .ok n ∧
      n.entityDefinition "Person" = .ok person.finished ∧
      (worked .empty [.accept (.finished (.entityDefinition person.finished))]).entityDefinition
        "Person" = .error (.notebook (.wrongKind "Person" .entityDefinition .entityDefinition)) := by
  have hfound : ((worked .empty [.accept (.finished (.entityDefinition person.finished))]).freeze >>=
      fun n => (n.entityDefinition "Person").mapError .notebook) = .ok person.finished := by
    decide +kernel
  obtain ⟨n, hn, he⟩ := bind_eq_ok.1 hfound
  exact ⟨n, hn, mapError_eq_ok.1 he, by decide +kernel⟩

end Workbench

end Metamodel
