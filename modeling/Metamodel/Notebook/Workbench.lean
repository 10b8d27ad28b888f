import Metamodel.Error
import Metamodel.Model.EntityDraft

set_option autoImplicit false

/-! # Workbenches

A workbench is a notebook in the making. It stands on a prior notebook and takes on finished
sketches and drafts of entity definitions, each under a name that neither it nor the prior has.
Drafts stay open for further attributes until `Workbench.freeze` builds them all and publishes the
new notebook behind the prior one. -/

namespace Metamodel

/-- What a workbench holds under a name. -/
inductive Slot
  | finished (sketch : Sketch)
  | draft (draft : EntityDraft)
deriving DecidableEq, Repr

namespace Slot

/-- The name of a slot. -/
def name : Slot → String
  | .finished s => s.name
  | .draft d => d.name

/-- The sketch of a slot; a draft is built for it. -/
def build : Slot → Except SketchError Sketch
  | .finished s => .ok s
  | .draft d => d.build.map .entityDefinition

/-- The slot after a change to its draft. -/
def apply (c : DraftChange) : Slot → Slot
  | .finished s => .finished s
  | .draft d => .draft (d.apply c)

end Slot

instance : Named Slot := ⟨Slot.name⟩

theorem Slot.nameOf_apply (c : DraftChange) (s : Slot) :
    Named.nameOf (s.apply c) = Named.nameOf s := by
  cases s with
  | finished s => rfl
  | draft d => exact d.name_apply c

/-- A notebook in the making. -/
structure Workbench where
  prior : Notebook
  slots : List Slot
  distinct : (prior.names ++ Named.names slots).Nodup

namespace Workbench

/-- An empty workbench on a prior notebook. -/
def start (prior : Notebook) : Workbench :=
  ⟨prior, [], by simpa [Notebook.names, Named.names] using prior.distinct⟩

/-- The slot of the given name. -/
def slot? (b : Workbench) (name : String) : Option Slot := Named.get? b.slots name

/-- Whether a name is taken, by the prior notebook or on the workbench. -/
def contains (b : Workbench) (name : String) : Bool :=
  b.prior.contains name || Named.has b.slots name

/-! ## Looking up -/

/-- The finished sketch of the given name and kind. A draft is of the kind entity definition, but
not finished. -/
def resolve (b : Workbench) (name : String) (kind : SketchKind) :
    Except NotebookError Sketch :=
  match b.slot? name with
  | some (.finished s) => Notebook.expectKind s kind
  | some (.draft _) =>
    if kind = .entityDefinition then .error (.stillOpen name)
    else .error (.wrongKind name kind .entityDefinition)
  | none => b.prior.resolve name kind

/-- Succeeds if each of some names leads to a finished sketch of the given kind. -/
def resolveAll (b : Workbench) (kind : SketchKind) : List String → Except NotebookError Unit
  | [] => .ok ()
  | name :: names => match b.resolve name kind with
    | .ok _ => b.resolveAll kind names
    | .error e => .error e

/-- The error that a finished sketch is no entity definition that can be worked on. -/
def notDefinition (s : Sketch) : ModelError :=
  .notebook (.wrongKind s.name .entityDefinition s.kind)

/-- The present state of an entity definition: that of the prior notebook, or what its draft builds
now. -/
def entityDefinition (b : Workbench) (name : String) : Except ModelError EntityDefinition :=
  match b.slot? name with
  | some (.draft d) => d.build.mapError .sketch
  | some (.finished s) => .error (notDefinition s)
  | none => (b.prior.entityDefinition name).mapError .notebook

/-- The draft of the given name. -/
def draft (b : Workbench) (name : String) : Except ModelError EntityDraft :=
  match b.slot? name with
  | some (.draft d) => .ok d
  | some (.finished s) => .error (notDefinition s)
  | none =>
    if b.prior.contains name then .error (.broken name .frozenDefinition)
    else .error (.notebook (.notFound name))

/-! ## Working -/

theorem nodup_accept (b : Workbench) {s : Slot} (h : b.contains s.name = false) :
    (b.prior.names ++ Named.names (b.slots ++ [s])).Nodup := by
  have hb := b.distinct
  have hn : Named.nameOf s ∉ b.prior.names ++ Named.names b.slots := by
    intro hm
    have hc : b.contains s.name = true := by
      simp only [contains, Notebook.contains, Bool.or_eq_true, Named.has_iff]
      exact List.mem_append.1 hm
    simp [h] at hc
  rw [Named.names, List.map_append, ← List.append_assoc]
  refine List.nodup_append.2 ⟨hb, by simp, ?_⟩
  rintro a ha c hc rfl
  simp only [List.map_cons, List.map_nil, List.mem_singleton] at hc
  exact hn (hc ▸ ha)

/-- The workbench with one more slot, if its name is free. -/
def accept (b : Workbench) (s : Slot) : Except NotebookError Workbench :=
  if h : b.contains s.name = false then
    .ok { b with slots := b.slots ++ [s], distinct := b.nodup_accept h }
  else .error (.duplicate s.name)

/-- The workbench after a change to the draft of the given name. -/
def change (b : Workbench) (name : String) (c : DraftChange) : Workbench :=
  { b with
    slots := Named.modify name (Slot.apply c) b.slots
    distinct := by
      rw [Named.names_modify (Slot.nameOf_apply c)]
      exact b.distinct }

/-! ## Freezing -/

theorem name_build {s : Slot} {k : Sketch} (h : s.build = .ok k) :
    Named.nameOf k = Named.nameOf s := by
  cases s with
  | finished t => cases h; rfl
  | draft d =>
    simp only [Slot.build, EntityDraft.build] at h
    split at h <;> cases h
    rfl

/-- The sketches of some slots, in order, or the first error of a draft. -/
def buildAll : List Slot → Except SketchError (List Sketch)
  | [] => .ok []
  | s :: rest => match s.build with
    | .error e => .error e
    | .ok k => (buildAll rest).map (k :: ·)

theorem names_buildAll {slots : List Slot} {ks : List Sketch} (h : buildAll slots = .ok ks) :
    Named.names ks = Named.names slots := by
  induction slots generalizing ks with
  | nil => cases h; rfl
  | cons s rest ih =>
    simp only [buildAll] at h
    split at h
    · cases h
    · rename_i k hk
      cases hr : buildAll rest with
      | error e => simp [hr, Except.map] at h
      | ok ks' =>
        simp only [hr, Except.map] at h
        cases h
        simp only [Named.names, List.map_cons] at ih ⊢
        rw [name_build hk, ih hr]

/-- The notebook that holds the sketches of the prior and those of all slots. -/
def publish (b : Workbench) : Except SketchError Notebook :=
  match h : buildAll b.slots with
  | .error e => .error e
  | .ok ks => .ok
    { sketches := b.prior.sketches ++ ks
      distinct := by
        have hb := b.distinct
        rw [Notebook.names, ← names_buildAll h] at hb
        simpa [Named.names] using hb }

/-- The domains of objects whose entity definition a notebook does not have, each with the name it
gives. -/
def danglingDomains (n : Notebook) : List (Domain × String) :=
  (n.sketches.filterMap Sketch.domain?).filterMap fun d => match d.definitionName? with
    | some target => match n.entityDefinition target with
      | .ok _ => none
      | .error _ => some (d, target)
    | none => none

/-- Builds every draft and publishes the notebook, unless a domain of objects lacks its entity
definition. -/
def freeze (b : Workbench) : Except ModelError Notebook :=
  match b.publish with
  | .error e => .error (.sketch e)
  | .ok n => match danglingDomains n with
    | [] => .ok n
    | (d, target) :: _ => .error (.broken d.name (.unknownObjectDefinition target))

end Workbench

end Metamodel
