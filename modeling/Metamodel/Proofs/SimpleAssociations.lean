import Metamodel.Construction.InPlace
import Metamodel.Proofs.Accesses
import Metamodel.Proofs.Supply

set_option autoImplicit false

/-! # Simple associations are admitted exactly, and change one draft

A simple association is the only definition whose construction writes to the workbench. What it
needs is listed by `Definition.Admits`, in terms of what the definition says and what the workbench
holds; the construction succeeds in just these cases (`Definition.admits_of_toSimple`,
`Definition.toSimple_of_admits`), with the foreign key that `Reference.key` describes.

A function from a workbench to a workbench cannot leave a trace when it fails. What an error leaves is
therefore said of the construction that works on a workbench in place, step by step
(`Workbench.makeSimpleInPlace`); it does what the function does, and leaves the workbench as it was
if it fails. -/

namespace Metamodel

namespace Definition

variable {b : Workbench} {d : Definition}

/-! ## What simple associations ask for -/

/-- The definition gives the multiplicities of its ends A and B: by its type, or else by their signs
and together with both navigabilities. -/
inductive GivesMultiplicities (d : Definition) : Multiplicity → Multiplicity → Prop
  | manyToOne (typed : d.property? FieldName.associationType = some (.text "*>1"))
    (noneA : d.property? FieldName.multiplicityA = none)
    (noneB : d.property? FieldName.multiplicityB = none) :
    GivesMultiplicities d .zeroOrMany .one
  | manyToOptional (typed : d.property? FieldName.associationType = some (.text "*>?"))
    (noneA : d.property? FieldName.multiplicityA = none)
    (noneB : d.property? FieldName.multiplicityB = none) :
    GivesMultiplicities d .zeroOrMany .zeroOrOne
  | given {a b : Multiplicity} {navigableA navigableB : Bool}
    (untyped : d.property? FieldName.associationType = none)
    (givenA : d.property? FieldName.multiplicityA = some (.text a.sign))
    (givenB : d.property? FieldName.multiplicityB = some (.text b.sign))
    (navigabilityA : d.property? FieldName.navigabilityA = some (.flag navigableA))
    (navigabilityB : d.property? FieldName.navigabilityB = some (.flag navigableB)) :
    GivesMultiplicities d a b

/-- Both roles are given, and they differ. -/
def GivesDistinctRoles (d : Definition) : Prop :=
  ∃ roleA roleB, d.property? FieldName.roleA = some (.text roleA) ∧
    d.property? FieldName.roleB = some (.text roleB) ∧ roleA ≠ roleB

end Definition

/-- How one end of a simple association refers to the other: the definitions at both ends, how many
objects stand there, the side of the primary end, its identifier, and the draft at the other end. -/
structure Reference where
  definitionA : String
  definitionB : String
  multiplicityA : Multiplicity
  multiplicityB : Multiplicity
  primary : Side
  id : Attribute
  draft : EntityDraft

namespace Reference

variable (r : Reference) (d : Definition)

/-- The definition at the primary end. -/
def referred : String := r.primary.pick r.definitionA r.definitionB

/-- The definition at the other end. -/
def referring : String := r.primary.other.pick r.definitionA r.definitionB

/-- How many objects stand at the primary end. -/
def multiplicity : Multiplicity := r.primary.pick r.multiplicityA r.multiplicityB

/-- How many objects stand at the other end. -/
def otherMultiplicity : Multiplicity := r.primary.other.pick r.multiplicityA r.multiplicityB

/-- The label of the primary end: its own, or else its role, or else the name of its definition. -/
def label : String :=
  r.primary.pick
    ((d.text? FieldName.labelA).getD ((d.text? FieldName.roleA).getD r.definitionA))
    ((d.text? FieldName.labelB).getD ((d.text? FieldName.roleB).getD r.definitionB))

/-- The foreign key that refers to the identifier of the primary end. -/
def key : DataDraft where
  name := (d.text? FieldName.foreignKeyName).getD r.id.name
  label := r.label d
  domain := r.id.domain
  cardinality := if r.multiplicity.isNotNull then .one else .optional
  role := .foreignKey r.referred

end Reference

namespace Definition

variable {b : Workbench} {d : Definition}

/-- What admits a simple association on a workbench: just its primary end is single-valued, an end
that refers to its own definition tells the roles apart, the primary end has an identifier, and the
other end is a draft without an attribute of the name of the foreign key. -/
structure Admits (b : Workbench) (d : Definition) (r : Reference) : Prop where
  definitionA : d.target? FieldName.definitionA = some r.definitionA
  definitionB : d.target? FieldName.definitionB = some r.definitionB
  multiplicities : d.GivesMultiplicities r.multiplicityA r.multiplicityB
  single : r.multiplicity.isMany = false
  many : r.otherMultiplicity.isMany = true
  roles : r.definitionA = r.definitionB → d.GivesDistinctRoles
  identified : ∃ e, b.entityDefinition r.referred = .ok e ∧ e.id? = some r.id
  drafted : b.slot? r.referring = some (.draft r.draft)
  free : (r.key d).name ∉ r.draft.attributeNames

/-! ## Steps -/

theorem multiplicity_eq_ok {field : String} {m : Multiplicity} :
    d.multiplicity field = .ok m ↔ d.property? field = some (.text m.sign) := by
  rw [← text?_eq_some_iff, multiplicity]
  cases d.text? field with
  | none => simp
  | some s =>
    have hsign : some s = some m.sign ↔ Multiplicity.ofSign? s = some m := by
      rw [Multiplicity.ofSign?_eq_some_iff, Option.some.injEq, eq_comm]
    rw [hsign]
    cases hm : Multiplicity.ofSign? s <;> simp [hm]

theorem navigability_eq_ok {field : String} {navigable : Bool} :
    d.navigability field = .ok navigable ↔ d.property? field = some (.flag navigable) := by
  rw [← flag?_eq_some_iff, navigability]
  cases d.flag? field <;> simp

/-- The types of associations with a single-valued end. -/
theorem typeMultiplicities?_eq_some_iff {type : String} {a b : Multiplicity}
    (hone : ¬(a.isMany = true ∧ b.isMany = true)) :
    typeMultiplicities? type = some (a, b) ↔
      a = .zeroOrMany ∧ (type = "*>1" ∧ b = .one ∨ type = "*>?" ∧ b = .zeroOrOne) := by
  unfold typeMultiplicities?
  constructor
  · intro h
    split_ifs at h with hsingle hoptional hmany
    · cases h
      exact ⟨rfl, .inl ⟨hsingle, rfl⟩⟩
    · cases h
      exact ⟨rfl, .inr ⟨hoptional, rfl⟩⟩
    · cases h
      exact absurd ⟨rfl, rfl⟩ hone
  · rintro ⟨rfl, ⟨rfl, rfl⟩ | ⟨rfl, rfl⟩⟩ <;> rfl

/-- With a type, the multiplicities are those of the type, and none is filled. -/
theorem exists_endShapes_iff_of_type {type : String} {a b : Multiplicity}
    (htype : d.text? FieldName.associationType = some type) :
    (∃ shapes, d.endShapes = .ok shapes ∧ shapes.multiplicityA = a ∧ shapes.multiplicityB = b) ↔
      d.isFilled FieldName.multiplicityA = false ∧ d.isFilled FieldName.multiplicityB = false ∧
        typeMultiplicities? type = some (a, b) := by
  simp only [endShapes, htype, Bool.or_eq_true]
  split
  · next hfilled =>
    refine iff_of_false (by simp) ?_
    rintro ⟨hA, hB, -⟩
    simp [hA, hB] at hfilled
  · next hfree =>
    rw [not_or, Bool.not_eq_true, Bool.not_eq_true] at hfree
    cases typeMultiplicities? type with
    | none => simp
    | some m => simp [hfree, Prod.ext_iff]

/-- Without a type, both multiplicities and both navigabilities are given. -/
theorem exists_endShapes_iff_of_no_type {a b : Multiplicity}
    (htype : d.text? FieldName.associationType = none) :
    (∃ shapes, d.endShapes = .ok shapes ∧ shapes.multiplicityA = a ∧ shapes.multiplicityB = b) ↔
      d.property? FieldName.multiplicityA = some (.text a.sign) ∧
        d.property? FieldName.multiplicityB = some (.text b.sign) ∧
        (∃ navigableA, d.property? FieldName.navigabilityA = some (.flag navigableA)) ∧
        ∃ navigableB, d.property? FieldName.navigabilityB = some (.flag navigableB) := by
  simp only [endShapes, htype, bind_eq_ok, pure_eq_ok, multiplicity_eq_ok, navigability_eq_ok]
  constructor
  · rintro ⟨_, ⟨_, hA, _, hB, navigableA, hnA, navigableB, hnB, rfl⟩, rfl, rfl⟩
    exact ⟨hA, hB, ⟨navigableA, hnA⟩, navigableB, hnB⟩
  · rintro ⟨hA, hB, ⟨navigableA, hnA⟩, navigableB, hnB⟩
    exact ⟨_, ⟨a, hA, b, hB, navigableA, hnA, navigableB, hnB, rfl⟩, rfl, rfl⟩

section Conforms

variable (h : d.Conforms)
include h

/-- A field that is declared as a text is filled by a property only. -/
theorem Conforms.isFilled_eq_false_iff {field : String}
    (hdeclared : (Access.text field).DeclaredIn d.entity) :
    d.isFilled field = false ↔ d.property? field = none := by
  obtain ⟨f, hf, hshape⟩ := Option.map_eq_some_iff.1 hdeclared
  have htargets : d.targets field = [] := by
    by_contra ht
    simpa [hf, hshape, Shape.role] using h.role_of_targets ht
  have hchildren : d.childrenOf field = [] := by
    by_contra hc
    simpa [hf, hshape, Shape.role] using h.role_of_childrenOf hc
  rw [← Bool.not_eq_true, isFilled_eq_true_iff, Option.eq_none_iff_forall_ne_some]
  simp [htargets, hchildren]

variable (hk : d.entity = EntityKind.association.entity)
include hk

/-- Both ends have the multiplicities that the definition gives, if one of them is single-valued. -/
theorem Conforms.exists_endShapes_iff {a b : Multiplicity}
    (hone : ¬(a.isMany = true ∧ b.isMany = true)) :
    (∃ shapes, d.endShapes = .ok shapes ∧ shapes.multiplicityA = a ∧ shapes.multiplicityB = b) ↔
      d.GivesMultiplicities a b := by
  have hdeclared : ∀ a ∈ EntityKind.association.accesses, a.DeclaredIn d.entity :=
    fun a ha => hk ▸ EntityKind.association.declared_of_mem_accesses a ha
  have hfreeA := h.isFilled_eq_false_iff
    (hdeclared (.text FieldName.multiplicityA) (by simp [EntityKind.accesses]))
  have hfreeB := h.isFilled_eq_false_iff
    (hdeclared (.text FieldName.multiplicityB) (by simp [EntityKind.accesses]))
  have hserved := h.served
    (hdeclared (.text FieldName.associationType) (by simp [EntityKind.accesses]))
  -- A type rules given multiplicities out, so what is given decides which constructor applies.
  cases htype : d.text? FieldName.associationType with
  | some type =>
    have htyped := text?_eq_some_iff.1 htype
    rw [exists_endShapes_iff_of_type htype, hfreeA, hfreeB, typeMultiplicities?_eq_some_iff hone]
    constructor
    · rintro ⟨hA, hB, rfl, ⟨rfl, rfl⟩ | ⟨rfl, rfl⟩⟩
      · exact .manyToOne htyped hA hB
      · exact .manyToOptional htyped hA hB
    · intro hg
      cases hg with
      | manyToOne htyped' hA hB =>
        cases htyped.symm.trans htyped'
        exact ⟨hA, hB, rfl, .inl ⟨rfl, rfl⟩⟩
      | manyToOptional htyped' hA hB =>
        cases htyped.symm.trans htyped'
        exact ⟨hA, hB, rfl, .inr ⟨rfl, rfl⟩⟩
      | given huntyped => cases htyped.symm.trans huntyped
  | none =>
    have huntyped := (text?_eq_none_iff hserved).1 htype
    rw [exists_endShapes_iff_of_no_type htype]
    constructor
    · rintro ⟨hA, hB, ⟨_, hnA⟩, _, hnB⟩
      exact .given huntyped hA hB hnA hnB
    · intro hg
      cases hg with
      | manyToOne htyped => cases huntyped.symm.trans htyped
      | manyToOptional htyped => cases huntyped.symm.trans htyped
      | given _ hA hB hnA hnB => exact ⟨hA, hB, ⟨_, hnA⟩, _, hnB⟩

end Conforms

theorem givesDistinctRoles_iff :
    d.GivesDistinctRoles ↔ ¬(d.text? FieldName.roleA = none ∨ d.text? FieldName.roleB = none ∨
      d.text? FieldName.roleA = d.text? FieldName.roleB) := by
  simp only [GivesDistinctRoles, ← text?_eq_some_iff]
  cases d.text? FieldName.roleA <;> cases d.text? FieldName.roleB <;> simp

/-- Roles are the names of the definitions unless given. -/
theorem roles_eq_ok {definitionA definitionB roleA roleB : String} :
    d.roles definitionA definitionB = .ok (roleA, roleB) ↔
      (definitionA = definitionB → d.GivesDistinctRoles) ∧
      roleA = (d.text? FieldName.roleA).getD definitionA ∧
      roleB = (d.text? FieldName.roleB).getD definitionB := by
  rw [givesDistinctRoles_iff, roles]
  split
  · next hequal =>
    exact iff_of_false (by simp) fun h => h.1 hequal.1 hequal.2
  · next hdistinct =>
    rw [and_iff_right (not_and.1 hdistinct), Except.ok.injEq, Prod.mk.injEq]
    exact and_congr eq_comm eq_comm

/-- The end of an association at a definition, whose name stands for the role unless it is given,
and the role for the label. -/
def endFor (d : Definition) (definition : String) (navigable : Bool) (role label : String)
    (multiplicity : Multiplicity) : AssociationEnd where
  definition := definition
  navigable := navigable
  role := (d.text? role).getD definition
  label := (d.text? label).getD ((d.text? role).getD definition)
  multiplicity := multiplicity

theorem ends_eq_ok_iff {definitionA definitionB : String} {shapes : EndShapes}
    {endA endB : AssociationEnd} :
    d.ends definitionA definitionB shapes = .ok (endA, endB) ↔
      (definitionA = definitionB → d.GivesDistinctRoles) ∧
      endA = d.endFor definitionA shapes.navigableA FieldName.roleA FieldName.labelA
        shapes.multiplicityA ∧
      endB = d.endFor definitionB shapes.navigableB FieldName.roleB FieldName.labelB
        shapes.multiplicityB := by
  simp only [ends, bind_eq_ok, pure_eq_ok, Prod.exists, roles_eq_ok, Prod.mk.injEq]
  constructor
  · rintro ⟨_, _, ⟨hroles, rfl, rfl⟩, rfl, rfl⟩
    exact ⟨hroles, rfl, rfl⟩
  · rintro ⟨hroles, rfl, rfl⟩
    exact ⟨_, _, ⟨hroles, rfl, rfl⟩, rfl, rfl⟩

/-! ## Admission -/

theorem not_both_isMany {side : Side} {a b : Multiplicity} (h : (side.pick a b).isMany = false) :
    ¬(a.isMany = true ∧ b.isMany = true) := by
  rintro ⟨ha, hb⟩
  cases side with
  | a => exact absurd (ha.symm.trans h) (by decide)
  | b => exact absurd (hb.symm.trans h) (by decide)

/-- What is read off the ends of a simple association is what its reference says. -/
theorem reads_ends (d : Definition) (r : Reference) {endA endB : AssociationEnd}
    {navigableA navigableB : Bool}
    (hA : endA =
      d.endFor r.definitionA navigableA FieldName.roleA FieldName.labelA r.multiplicityA)
    (hB : endB =
      d.endFor r.definitionB navigableB FieldName.roleB FieldName.labelB r.multiplicityB) :
    (r.primary.pick endA endB).definition = r.referred ∧
      (r.primary.other.pick endA endB).definition = r.referring ∧
      d.foreignKey (r.primary.pick endA endB) r.id = r.key d := by
  obtain ⟨definitionA, definitionB, multiplicityA, multiplicityB, primary, id, x⟩ := r
  subst hA hB
  cases primary <;> exact ⟨rfl, rfl, rfl⟩

section Admission

variable (h : d.Conforms) (hk : d.entity = EntityKind.association.entity)
include h hk

/-- What a simple association is constructed from admits it. -/
theorem admits_of_toSimple {a : Association} {foreign : String} {key : DataDraft}
    (hs : d.toSimple b = .ok (a, foreign, key)) :
    ∃ r, d.Admits b r ∧ foreign = r.referring ∧ key = r.key d := by
  obtain ⟨_, _, _, e, id, x, hends, he, hid, hx, hfree, rfl, rfl, -⟩ := toSimple_eq_ok.1 hs
  simp only [simpleEnds, bind_eq_ok, pure_eq_ok, requireTarget_eq_ok, Prod.exists, Prod.mk.injEq,
    ends_eq_ok_iff, primarySide_eq_ok] at hends
  obtain ⟨definitionA, hA, definitionB, hB, shapes, hshapes, primary, ⟨hsingle, hmany⟩, endA, endB,
    ⟨hroles, hendA, hendB⟩, rfl, rfl, rfl⟩ := hends
  let r : Reference := ⟨definitionA, definitionB, shapes.multiplicityA, shapes.multiplicityB,
    primary, id, x⟩
  obtain ⟨hreferred, hreferring, hkey⟩ := reads_ends d r hendA hendB
  rw [hreferred] at he
  rw [hreferring] at hx
  rw [hkey] at hfree
  refine ⟨r, ?_, hreferring, hkey⟩
  exact {
    definitionA := hA
    definitionB := hB
    multiplicities :=
      (h.exists_endShapes_iff hk (not_both_isMany hsingle)).1 ⟨shapes, hshapes, rfl, rfl⟩
    single := hsingle
    many := hmany
    roles := hroles
    identified := ⟨e, he, hid⟩
    drafted := Workbench.draft_eq_ok.1 hx
    free := EntityDraft.hasAttribute_eq_false_iff.1 hfree }

/-- What admits a simple association is enough to construct it. -/
theorem toSimple_of_admits {r : Reference} (hr : d.Admits b r) :
    ∃ a, d.toSimple b = .ok (a, r.referring, r.key d) := by
  obtain ⟨shapes, hshapes, hmA, hmB⟩ :=
    (h.exists_endShapes_iff hk (not_both_isMany hr.single)).2 hr.multiplicities
  obtain ⟨e, he, hid⟩ := hr.identified
  let endA := d.endFor r.definitionA shapes.navigableA FieldName.roleA FieldName.labelA
    r.multiplicityA
  let endB := d.endFor r.definitionB shapes.navigableB FieldName.roleB FieldName.labelB
    r.multiplicityB
  obtain ⟨hreferred, hreferring, hkey⟩ := reads_ends d r (rfl : endA = _) (rfl : endB = _)
  have hside : d.primarySide shapes = .ok r.primary :=
    primarySide_eq_ok.2 ⟨hmA ▸ hmB ▸ hr.single, hmA ▸ hmB ▸ hr.many⟩
  have hends : d.simpleEnds = .ok (endA, endB, r.primary) := by
    simp only [simpleEnds, bind_eq_ok, pure_eq_ok, requireTarget_eq_ok, Prod.exists, Prod.mk.injEq]
    exact ⟨_, hr.definitionA, _, hr.definitionB, shapes, hshapes, _, hside, endA, endB,
      ends_eq_ok_iff.2 ⟨hr.roles, by rw [hmA], by rw [hmB]⟩, rfl, rfl, rfl⟩
  have hfree := EntityDraft.hasAttribute_eq_false_iff.2 hr.free
  exact ⟨_, toSimple_eq_ok.2 ⟨endA, endB, r.primary, e, r.id, r.draft, hends, by rwa [hreferred],
    hid, Workbench.draft_eq_ok.2 hr.drafted, hfree, hreferring.symm, hkey.symm, rfl⟩⟩

end Admission

end Definition

namespace Workbench

/-! ## Constructions in place -/

open Metamodel.InPlace

/-- Constructed in place, a simple association changes the workbench last, if at all. -/
theorem on_makeSimpleInPlace (b : Workbench) (d : Definition) :
    (makeSimpleInPlace d).on b = settled b (b.makeSimple d) := by
  unfold makeSimpleInPlace makeSimple Definition.toSimple
  rw [on_bind, on_read, pure_bind]
  -- One step after the other, on both sides: it fails alike, or the rest follows.
  cases d.simpleEnds with
  | error e => rfl
  | ok r =>
    obtain ⟨endA, endB, side⟩ := r
    have hlift : (liftM (.ok (endA, endB, side) : Except SketchError _) : Except ModelError _) =
      .ok (endA, endB, side) := rfl
    dsimp only [Except.mapError]
    rw [on_bind, on_read, pure_bind, hlift, ok_bind]
    cases b.entityDefinition (side.pick endA endB).definition with
    | error e => rfl
    | ok e =>
      dsimp only
      rw [ok_bind]
      cases e.id? with
      | none => rfl
      | some id =>
        dsimp only
        rw [on_bind, on_read, pure_bind]
        cases b.draft (side.other.pick endA endB).definition with
        | error e => rfl
        | ok x =>
          dsimp only
          rw [ok_bind]
          by_cases hfree : x.hasAttribute (d.foreignKey (side.pick endA endB) id).name = true
          · rw [if_pos hfree, if_pos hfree]
            rfl
          · rw [if_neg hfree, if_neg hfree]
            rfl

theorem on_only (f : Workbench → Except ModelError Slot) (b : Workbench) :
    (InPlace.only f).on b = settled b ((f b).map fun s => (b, [s])) := by
  rw [InPlace.only, on_read]
  cases f b <;> rfl

/-- Construction in place gives what `Workbench.construct` gives, and an error leaves the workbench
as it was. -/
theorem on_constructInPlace (b : Workbench) (d : Definition) :
    (constructInPlace d).on b = settled b (b.construct d) := by
  unfold constructInPlace construct
  cases EntityKind.ofName? d.entity.name with
  | none => rfl
  | some kind =>
    cases kind with
    | association =>
      dsimp only
      rw [on_bind, on_makeSimpleInPlace]
      cases b.makeSimple d <;> rfl
    | constraint | formatter | domain | entityDefinition | fragment | manyToMany =>
      exact on_only _ b
    | dataType | idField | dataField | computedField | aliasField => rfl

/-- Other kinds of definitions leave the workbench as it was, whether they succeed or fail. -/
theorem settled_construct_of_ne {d : Definition} (h : d.kind? ≠ some .association) (b : Workbench) :
    settled b (b.construct d) = ((b.construct d).map Prod.snd, b) := by
  have honly : ∀ s : Except ModelError Slot, settled b (s.map fun s => (b, [s])) =
      ((s.map fun s => (b, [s])).map Prod.snd, b) := by
    rintro (_ | _) <;> rfl
  unfold construct
  unfold Definition.kind? at h
  cases hk : EntityKind.ofName? d.entity.name with
  | none => rfl
  | some kind =>
    cases kind with
    | association => exact absurd hk h
    | constraint | formatter | domain | entityDefinition | fragment | manyToMany => exact honly _
    | dataType | idField | dataField | computedField | aliasField => rfl

/-- A change to a draft leaves the prior notebook and all other slots as they are. -/
theorem slots_change {b : Workbench} {name : String} {x : EntityDraft} (c : DraftChange)
    (h : b.slot? name = some (.draft x)) :
    (b.change name c).prior = b.prior ∧ ∃ before after, b.slots = before ++ .draft x :: after ∧
      (b.change name c).slots = before ++ .draft (x.apply c) :: after :=
  ⟨rfl, Named.modify_of_get? h⟩

/-- **Simple associations are admitted exactly, and change one draft.** A definition that has been
checked becomes a simple association just if something admits it. If it does not, the workbench is
left as it was. If it does, the draft at the many-valued end has one more foreign key behind its
data, and nothing else has changed. Other definitions never change the workbench. -/
theorem makeSimple_exact {d : Definition} (hk : d.entity = EntityKind.association.entity)
    (hcheck : d.check = .ok ()) (b : Workbench) :
    ((∃ out, b.makeSimple d = .ok out) ↔ ∃ r, d.Admits b r) ∧
    (∀ e, b.makeSimple d = .error e → (makeSimpleInPlace d).on b = (.error e, b)) ∧
    (∀ b' s, b.makeSimple d = .ok (b', s) → (makeSimpleInPlace d).on b = (.ok s, b') ∧
      b'.prior = b.prior ∧ ∃ r, d.Admits b r ∧
        ∃ before after, b.slots = before ++ .draft r.draft :: after ∧
          b'.slots =
            before ++ .draft { r.draft with data := r.draft.data ++ [r.key d] } :: after) ∧
    ∀ c : Definition, c.kind? ≠ some .association → ∀ b,
      (constructInPlace c).on b = ((b.construct c).map Prod.snd, b) := by
  have hconforms := Definition.conforms_of_check (hk ▸ rfl) hcheck
  have hmade : ∀ {b' s}, b.makeSimple d = .ok (b', s) ↔ ∃ a foreign key,
      d.toSimple b = .ok (a, foreign, key) ∧ b.change foreign (.addData key) = b' ∧
        .finished (.association a) = s := by
    simp only [makeSimple, bind_eq_ok, pure_eq_ok, Prod.exists, Prod.mk.injEq, implies_true]
  refine ⟨?_, fun e he => ?_, fun b' s hs => ⟨?_, ?_⟩, fun c hc b => ?_⟩
  · constructor
    · rintro ⟨⟨b', s⟩, hs⟩
      obtain ⟨a, foreign, key, ha, -⟩ := hmade.1 hs
      obtain ⟨r, hr, -⟩ := Definition.admits_of_toSimple hconforms hk ha
      exact ⟨r, hr⟩
    · rintro ⟨r, hr⟩
      obtain ⟨a, ha⟩ := Definition.toSimple_of_admits hconforms hk hr
      exact ⟨_, hmade.2 ⟨a, _, _, ha, rfl, rfl⟩⟩
  · rw [on_makeSimpleInPlace, he, settled]
  · rw [on_makeSimpleInPlace, hs, settled]
  · obtain ⟨a, foreign, key, ha, rfl, -⟩ := hmade.1 hs
    obtain ⟨r, hr, rfl, rfl⟩ := Definition.admits_of_toSimple hconforms hk ha
    obtain ⟨hprior, hslots⟩ := slots_change (.addData (r.key d)) hr.drafted
    exact ⟨hprior, r, hr, hslots⟩
  · rw [on_constructInPlace, settled_construct_of_ne hc]

/-- Each car belongs to one person. -/
def ownership : Definition :=
  (((Definition.empty EntityKind.association.entity "CarOwner" none).setProperty
    FieldName.associationType (.text "*>1")).addLinks FieldName.definitionA ["Car"]).addLinks
    FieldName.definitionB ["Person"]

/-- A car that is worked on. -/
def car : EntityDraft := { EntityDraft.empty "Car" with ids := [⟨"carId", "Id", "DoId"⟩] }

/-- A person without attributes but the identifier. -/
def carUser : EntityDraft := { EntityDraft.empty "Person" with ids := [⟨"perId", "Id", "DoId"⟩] }

/-- A workbench with drafts of a car and of a person. -/
def carBench : Workbench where
  prior := .empty
  slots := [.draft car, .draft carUser]
  distinct := by decide

/-- The car refers to the person. -/
def owner : Reference where
  definitionA := "Car"
  definitionB := "Person"
  multiplicityA := .zeroOrMany
  multiplicityB := .one
  primary := .b
  id := ⟨"perId", "Id", .id, .one, true, "DoId"⟩
  draft := car

theorem makeSimple_exact_ownership :
    (∃ s b', (makeSimpleInPlace ownership).on carBench = (.ok s, b') ∧ b'.prior = .empty ∧
      b'.slots = [.draft { car with data := [⟨"perId", "Person", "DoId", .one,
        .foreignKey "Person"⟩] }, .draft carUser]) ∧
    ∃ e, (makeSimpleInPlace ownership).on (.start .empty) = (.error e, .start .empty) := by
  have hcheck : ownership.check = .ok () := by decide +kernel
  constructor
  · have hadmits : ownership.Admits carBench owner := {
      definitionA := rfl
      definitionB := rfl
      multiplicities := .manyToOne rfl rfl rfl
      single := rfl
      many := rfl
      roles := fun h => absurd h (by decide)
      identified := ⟨_, rfl, rfl⟩
      drafted := rfl
      free := by decide }
    obtain ⟨hiff, -, hok, -⟩ := makeSimple_exact rfl hcheck carBench
    obtain ⟨⟨b', s⟩, hs⟩ := hiff.2 ⟨owner, hadmits⟩
    obtain ⟨hrun, hprior, -⟩ := hok b' s hs
    have hslots : (fun out => out.1.slots) <$> carBench.makeSimple ownership =
        .ok [.draft (car.addData (owner.key ownership)), .draft carUser] := by
      decide +kernel
    rw [hs] at hslots
    exact ⟨s, b', hrun, hprior, Except.ok.inj hslots⟩
  · obtain ⟨hiff, herror, -⟩ := makeSimple_exact rfl hcheck (.start .empty)
    cases hs : (Workbench.start .empty).makeSimple ownership with
    | error e => exact ⟨e, herror e hs⟩
    | ok out =>
      obtain ⟨r, hr⟩ := hiff.1 ⟨out, hs⟩
      cases hr.drafted

end Workbench

end Metamodel
