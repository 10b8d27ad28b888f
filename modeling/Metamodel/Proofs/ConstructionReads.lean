import Metamodel.Construction
import Metamodel.Proofs.Accesses

set_option autoImplicit false

/-! # Constructions read nothing but their accesses

Two definitions read alike if the accesses of a kind give the same in both, and in the children that
its construction looks into (`ReadsAlike`). On any workbench, such definitions are constructed to the
same, or fail with the same error (`construct_eq_of_alike`): nothing else in their fields counts. -/

namespace Metamodel

namespace Definition

/-! ## Reading alike -/

/-- What the construction of a kind reads is the same in both definitions. -/
structure AccessedAlike (k : EntityKind) (d d' : Definition) : Prop where
  key : d.key = d'.key
  own : ∀ a ∈ k.accesses, a.Alike d d'

/-- The construction of a kind reads the same of both definitions: in their fields, in their children,
and of the multiplicities also whether they are given at all. -/
structure ReadsAlike (k : EntityKind) (d d' : Definition) : Prop extends AccessedAlike k d d' where
  entity : d.entity.name = d'.entity.name
  package : d.package = d'.package
  targets : ∀ field, d.targets field = d'.targets field
  filled : ∀ field ∈ [FieldName.multiplicityA, FieldName.multiplicityB],
    d.isFilled field = d'.isFilled field
  nested : ∀ n ∈ k.nested, List.Forall₂ (AccessedAlike n.2) (d.childrenOf n.1) (d'.childrenOf n.1)

section Congr

variable {d d' : Definition} (b : Workbench)

section Accessed

variable {k : EntityKind} (h : AccessedAlike k d d') (field : String)

include h

theorem AccessedAlike.text (hf : .text field ∈ k.accesses) : d.text? field = d'.text? field :=
  h.own (.text field) hf

theorem AccessedAlike.flag (hf : .flag field ∈ k.accesses) : d.flag? field = d'.flag? field :=
  h.own (.flag field) hf

theorem AccessedAlike.neededText (hf : .neededText field ∈ k.accesses) :
    d.requireText field = d'.requireText field := by
  have htext : d.text? field = d'.text? field := h.own (.neededText field) hf
  rw [requireText, requireText, broken, broken, htext, h.key]

theorem AccessedAlike.neededTarget (hf : .neededTarget field ∈ k.accesses) :
    d.requireTarget field = d'.requireTarget field := by
  have htarget : d.target? field = d'.target? field := h.own (.neededTarget field) hf
  rw [requireTarget, requireTarget, broken, broken, htarget, h.key]

theorem AccessedAlike.cardinalityOr (hf : .text FieldName.cardinality ∈ k.accesses)
    (default : Cardinality) : d.cardinalityOr default = d'.cardinalityOr default := by
  rw [Definition.cardinalityOr, Definition.cardinalityOr, h.text FieldName.cardinality hf]
  simp only [broken, h.key]

end Accessed

theorem toIdDraft_eq_of_alike (h : AccessedAlike .idField d d') : d.toIdDraft b = d'.toIdDraft b := by
  have hdomain := h.neededTarget FieldName.domain (by decide)
  have hlabel := h.neededText FieldName.label (by decide)
  simp only [toIdDraft, attributeDomain, hdomain, hlabel, h.key]

theorem toDataDraft_eq_of_alike (h : AccessedAlike .dataField d d') :
    d.toDataDraft b = d'.toDataDraft b := by
  have hdomain := h.neededTarget FieldName.domain (by decide)
  have hlabel := h.neededText FieldName.label (by decide)
  have hcardinality := h.cardinalityOr (by decide) .optional
  have hpersistent := h.flag FieldName.persistent (by decide)
  simp only [toDataDraft, attributeDomain, hdomain, hlabel, hcardinality, hpersistent, h.key]

theorem toComputedDraft_eq_of_alike {parent parent' : Definition} (hparent : parent.key = parent'.key)
    (h : AccessedAlike .computedField d d') :
    toComputedDraft b parent d = toComputedDraft b parent' d' := by
  have hdomain := h.neededTarget FieldName.domain (by decide)
  have hlabel := h.neededText FieldName.label (by decide)
  have hexpression := h.neededText FieldName.expression (by decide)
  have hcardinality := h.cardinalityOr (by decide) .optional
  have hpersistent := h.flag FieldName.persistent (by decide)
  simp only [toComputedDraft, attributeDomain, hdomain, hlabel, hexpression, hcardinality,
    hpersistent, h.key, hparent]

theorem toAlias_eq_of_alike (origin : EntityDefinition) (originName : String)
    (h : AccessedAlike .aliasField d d') :
    toAlias origin originName d = toAlias origin originName d' := by
  have hcardinality := h.cardinalityOr (by decide)
  have hlabel := h.text FieldName.label (by decide)
  simp only [toAlias, hcardinality, hlabel, h.key]

theorem toConstraint_eq_of_alike (h : ReadsAlike .constraint d d') :
    d.toConstraint = d'.toConstraint := by
  have hclass := h.neededText FieldName.className (by decide)
  have hargs := h.text FieldName.args (by decide)
  have hmsg := h.text FieldName.msg (by decide)
  simp only [toConstraint, hclass, hargs, hmsg, h.key, h.package]

theorem toFormatter_eq_of_alike (h : ReadsAlike .formatter d d') : d.toFormatter = d'.toFormatter := by
  have hclass := h.neededText FieldName.className (by decide)
  have hargs := h.text FieldName.args (by decide)
  simp only [toFormatter, hclass, hargs, h.key, h.package]

theorem domainScope_eq_of_alike (h : ReadsAlike .domain d d') (dataType : String) :
    d.domainScope b dataType = d'.domainScope b dataType := by
  have htype := h.text FieldName.type (by decide)
  have hobject : d.objectType dataType = d'.objectType dataType := by
    unfold objectType target? broken
    rw [h.targets, h.targets, h.key, htype]
  have hprimitive : d.primitiveScope b dataType = d'.primitiveScope b dataType := by
    unfold primitiveScope target?
    rw [h.targets, h.targets, h.key, htype]
  rw [domainScope, domainScope, hobject, hprimitive]

theorem toDomain_eq_of_alike (h : ReadsAlike .domain d d') : d.toDomain b = d'.toDomain b := by
  have hdataType := h.neededTarget FieldName.dataType (by decide)
  have hscope := domainScope_eq_of_alike b h
  have hstoreType := h.text FieldName.storeType (by decide)
  have hmultiple := h.flag FieldName.multiple (by decide)
  simp only [toDomain, hdataType, hscope, hstoreType, hmultiple, h.key, h.package]

theorem toEntityDraft_eq_of_alike (h : ReadsAlike .entityDefinition d d') :
    d.toEntityDraft b = d'.toEntityDraft b := by
  have hstereotype := h.text FieldName.stereotype (by decide)
  have hdataSpace := h.text FieldName.dataSpace (by decide)
  have hsort := h.text FieldName.sortField (by decide)
  have hdisplay := h.text FieldName.displayField (by decide)
  have hhandle := h.text FieldName.handleField (by decide)
  have hids : (d.childrenOf FieldName.ids).mapM (·.toIdDraft b) =
      (d'.childrenOf FieldName.ids).mapM (·.toIdDraft b) :=
    mapM_congr_of_forall₂ ((h.nested (FieldName.ids, .idField) (by decide)).imp
      fun _ _ => toIdDraft_eq_of_alike b)
  have hdata : (d.childrenOf FieldName.fields).mapM (·.toDataDraft b) =
      (d'.childrenOf FieldName.fields).mapM (·.toDataDraft b) :=
    mapM_congr_of_forall₂ ((h.nested (FieldName.fields, .dataField) (by decide)).imp
      fun _ _ => toDataDraft_eq_of_alike b)
  have hcomputed : (d.childrenOf FieldName.computed).mapM (d.toComputedDraft b) =
      (d'.childrenOf FieldName.computed).mapM (d'.toComputedDraft b) :=
    mapM_congr_of_forall₂ ((h.nested (FieldName.computed, .computedField) (by decide)).imp
      fun _ _ => toComputedDraft_eq_of_alike b h.key)
  simp only [toEntityDraft, stereotype?, broken, hstereotype, hdataSpace, hsort, hdisplay, hhandle,
    hids, hdata, hcomputed, h.key, h.package]

theorem toFragmentDraft_eq_of_alike (h : ReadsAlike .fragment d d') :
    d.toFragmentDraft b = d'.toFragmentDraft b := by
  have horigin := h.neededTarget FieldName.origin (by decide)
  have hdataSpace := h.text FieldName.dataSpace (by decide)
  have hsort := h.text FieldName.sortField (by decide)
  have hdisplay := h.text FieldName.displayField (by decide)
  have hhandle := h.text FieldName.handleField (by decide)
  have haliases : d.toAliases = d'.toAliases := by
    funext origin originName
    exact mapM_congr_of_forall₂ ((h.nested (FieldName.aliases, .aliasField) (by decide)).imp
      fun _ _ => toAlias_eq_of_alike origin originName)
  have hdata : (d.childrenOf FieldName.fields).mapM (·.toDataDraft b) =
      (d'.childrenOf FieldName.fields).mapM (·.toDataDraft b) :=
    mapM_congr_of_forall₂ ((h.nested (FieldName.fields, .dataField) (by decide)).imp
      fun _ _ => toDataDraft_eq_of_alike b)
  have hcomputed : (d.childrenOf FieldName.computed).mapM (d.toComputedDraft b) =
      (d'.childrenOf FieldName.computed).mapM (d'.toComputedDraft b) :=
    mapM_congr_of_forall₂ ((h.nested (FieldName.computed, .computedField) (by decide)).imp
      fun _ _ => toComputedDraft_eq_of_alike b h.key)
  simp only [toFragmentDraft, horigin, hdataSpace, hsort, hdisplay, hhandle, haliases, hdata,
    hcomputed, h.key, h.package]

/-- What a simple and a many-to-many association read of their ends. -/
structure EndsAlike (d d' : Definition) : Prop where
  key : d.key = d'.key
  definitionA : d.requireTarget FieldName.definitionA = d'.requireTarget FieldName.definitionA
  definitionB : d.requireTarget FieldName.definitionB = d'.requireTarget FieldName.definitionB
  navigabilityA : d.flag? FieldName.navigabilityA = d'.flag? FieldName.navigabilityA
  navigabilityB : d.flag? FieldName.navigabilityB = d'.flag? FieldName.navigabilityB
  ends : d.ends = d'.ends

theorem AccessedAlike.ends {k : EntityKind} (h : AccessedAlike k d d')
    (hk : k = .association ∨ k = .manyToMany) : EndsAlike d d' := by
  have hmem : ∀ a ∈ EntityKind.accesses.ends ++ EntityKind.accesses.endDetails,
      a ∈ k.accesses := by
    intro a ha
    rcases hk with rfl | rfl <;>
      simp only [EntityKind.accesses, List.mem_append] at ha ⊢ <;> tauto
  have hroleA := h.text FieldName.roleA (hmem _ (by decide))
  have hroleB := h.text FieldName.roleB (hmem _ (by decide))
  have hlabelA := h.text FieldName.labelA (hmem _ (by decide))
  have hlabelB := h.text FieldName.labelB (hmem _ (by decide))
  have hroles : d.roles = d'.roles := by
    funext definitionA definitionB
    unfold roles broken
    rw [hroleA, hroleB, h.key]
  exact {
    key := h.key
    definitionA := h.neededTarget FieldName.definitionA (hmem _ (by decide))
    definitionB := h.neededTarget FieldName.definitionB (hmem _ (by decide))
    navigabilityA := h.flag FieldName.navigabilityA (hmem _ (by decide))
    navigabilityB := h.flag FieldName.navigabilityB (hmem _ (by decide))
    ends := by
      funext definitionA definitionB shapes
      rw [Definition.ends, Definition.ends, hroles, hlabelA, hlabelB] }

theorem endShapes_eq_of_alike (h : ReadsAlike .association d d') : d.endShapes = d'.endShapes := by
  have hends := h.ends (.inl rfl)
  have htype := h.text FieldName.associationType (by decide)
  have hmultiplicityA := h.text FieldName.multiplicityA (by decide)
  have hmultiplicityB := h.text FieldName.multiplicityB (by decide)
  have hfilledA := h.filled FieldName.multiplicityA (by decide)
  have hfilledB := h.filled FieldName.multiplicityB (by decide)
  unfold endShapes multiplicity navigability broken
  rw [htype, hmultiplicityA, hmultiplicityB, hfilledA, hfilledB, hends.navigabilityA,
    hends.navigabilityB, h.key]

theorem toSimple_eq_of_alike (h : ReadsAlike .association d d') : d.toSimple b = d'.toSimple b := by
  have hends := h.ends (.inl rfl)
  have hkeyName : d.foreignKey = d'.foreignKey := by
    funext primary id
    have hname := h.text FieldName.foreignKeyName (by decide)
    rw [foreignKey, foreignKey, hname]
  have hside : d.primarySide = d'.primarySide := by
    funext shapes
    unfold primarySide broken
    rw [h.key]
  have hsimple : d.simpleEnds = d'.simpleEnds := by
    rw [simpleEnds, simpleEnds, hends.definitionA, hends.definitionB, endShapes_eq_of_alike h, hside,
      hends.ends]
  unfold toSimple
  rw [hsimple, hkeyName, h.key, h.package]

theorem toManyToMany_eq_of_alike (h : ReadsAlike .manyToMany d d') :
    d.toManyToMany b = d'.toManyToMany b := by
  have hends := h.ends (.inr rfl)
  have htable := h.neededText FieldName.tableName (by decide)
  unfold toManyToMany
  rw [hends.definitionA, hends.definitionB, htable, hends.ends, hends.navigabilityA,
    hends.navigabilityB, h.key, h.package]

/-- A construction gives the same for definitions that read alike. -/
theorem construct_eq_of_alike {k : EntityKind} (hk : EntityKind.ofName? d.entity.name = some k)
    (h : ReadsAlike k d d') : b.construct d = b.construct d' := by
  simp only [Workbench.construct, ← h.entity, hk]
  cases k with
  | dataType => rfl
  | constraint => rw [Workbench.makeConstraint, Workbench.makeConstraint, toConstraint_eq_of_alike h]
  | formatter => rw [Workbench.makeFormatter, Workbench.makeFormatter, toFormatter_eq_of_alike h]
  | domain => rw [Workbench.makeDomain, Workbench.makeDomain, toDomain_eq_of_alike b h]
  | entityDefinition =>
    rw [Workbench.makeEntityDefinition, Workbench.makeEntityDefinition, toEntityDraft_eq_of_alike b h]
  | fragment => rw [Workbench.makeFragment, Workbench.makeFragment, toFragmentDraft_eq_of_alike b h]
  | association => rw [Workbench.makeSimple, Workbench.makeSimple, toSimple_eq_of_alike b h]
  | manyToMany => rw [Workbench.makeManyToMany, Workbench.makeManyToMany, toManyToMany_eq_of_alike b h]
  | _ => rw [h.key]

end Congr

end Definition

end Metamodel
