import Metamodel.Construction
import Metamodel.Proofs.Growth

set_option autoImplicit false

/-! # What constructions give

One law for each construction says what a definition becomes if it becomes anything, in terms of the
preview of the workbench it is constructed on. Domains have all they name (`domainScope_eq_ok`),
drafts of both kinds meet `Definition.Drafted`, and a simple association is taken apart by
`toSimple_eq_ok` into its ends, the identifier it refers to and the draft it changes.

A construction gives the same on any two workbenches that it succeeds on, as far as what it reads
there can grow into the same (`toFragmentDraft_congr`, `toSimple_congr`). -/

namespace Metamodel

/-- A sketch of the given kind is kept under the given name. -/
def Notebook.Has (n : Notebook) (name : String) (kind : SketchKind) : Prop :=
  ∃ s, n.get? name = some s ∧ s.kind = kind

theorem Notebook.Grows.has {n m : Notebook} (h : n.Grows m) {name : String} {kind : SketchKind}
    (hn : n.Has name kind) : m.Has name kind := by
  obtain ⟨s, hs, rfl⟩ := hn
  obtain ⟨t, ht, hst⟩ := h name s hs
  exact ⟨t, ht, hst.kind_eq⟩

theorem Workbench.has_of_resolve {b : Workbench} {name : String} {kind : SketchKind} {s : Sketch}
    (h : b.resolve name kind = .ok s) : b.preview.Has name kind :=
  ⟨s, get?_of_resolve h⟩

theorem Workbench.resolveAll_eq_ok {b : Workbench} {kind : SketchKind} {names : List String}
    {u : Unit} :
    b.resolveAll kind names = .ok u ↔ ∀ name ∈ names, ∃ s, b.resolve name kind = .ok s := by
  induction names with
  | nil => simp [resolveAll]
  | cons name names ih =>
    rw [resolveAll, List.forall_mem_cons, ← ih]
    cases b.resolve name kind <;> simp

namespace Definition

/-! ## Required fields -/

theorem requireText_eq_ok {d : Definition} {field text : String} :
    d.requireText field = .ok text ↔ d.text? field = some text := by
  unfold requireText
  cases d.text? field <;> simp

theorem requireTarget_eq_ok {d : Definition} {field target : String} :
    d.requireTarget field = .ok target ↔ d.target? field = some target := by
  unfold requireTarget
  cases d.target? field <;> simp

/-! ## Domains -/

theorem primitiveScope_eq_ok {b : Workbench} {d : Definition} {dataType : String}
    {scope : DomainScope} :
    d.primitiveScope b dataType = .ok scope ↔ ∃ type, DataType.ofName? dataType = some type ∧
      d.text? FieldName.type = none ∧
      (∀ f, d.target? FieldName.formatter = some f → ∃ s, b.resolve f .formatter = .ok s) ∧
      (∀ c ∈ d.targets FieldName.constraint, ∃ s, b.resolve c .constraint = .ok s) ∧
      scope = .primitive type (d.target? FieldName.formatter) (d.targets FieldName.constraint) := by
  unfold primitiveScope
  cases DataType.ofName? dataType with
  | none => simp
  | some type =>
    simp only [guard_eq_ok, bind_eq_ok, liftNotebook_eq_ok, pure_eq_ok, Workbench.resolveAll_eq_ok,
      Option.mem_toList, Bool.not_eq_true, Option.isSome_eq_false_iff, Option.isNone_iff_eq_none,
      exists_const, Option.some.injEq, exists_eq_left', @eq_comm _ scope]

/-- A domain refers to what is there, unless it is a domain of objects. -/
theorem domainScope_eq_ok {b : Workbench} {d : Definition} {dataType : String}
    {scope : DomainScope} (h : d.domainScope b dataType = .ok scope) :
    (∃ type f cs, scope = .primitive type f cs ∧ (∀ n, f = some n → b.preview.Has n .formatter) ∧
      ∀ c ∈ cs, b.preview.Has c .constraint) ∨
    (∃ c, scope = .valueObject c) ∨ ∃ e, scope = .dataObject e := by
  unfold domainScope at h
  split at h
  · simp only [mapError_eq_ok, map_eq_ok] at h
    obtain ⟨e, -, rfl⟩ := h
    exact .inr (.inr ⟨e, rfl⟩)
  · split at h
    · simp only [mapError_eq_ok, map_eq_ok] at h
      obtain ⟨c, -, rfl⟩ := h
      exact .inr (.inl ⟨c, rfl⟩)
    · obtain ⟨type, -, -, hf, hc, rfl⟩ := primitiveScope_eq_ok.1 h
      exact .inl ⟨type, _, _, rfl, fun f hn => Workbench.has_of_resolve (hf f hn).choose_spec,
        fun c hm => Workbench.has_of_resolve (hc c hm).choose_spec⟩

theorem toDomain_eq_ok {b : Workbench} {d : Definition} {x : Domain} :
    d.toDomain b = .ok x ↔
      ∃ dataType scope, d.requireTarget FieldName.dataType = .ok dataType ∧
        d.domainScope b dataType = .ok scope ∧
        x = ⟨d.key, d.package, scope, d.text? FieldName.storeType,
          (d.flag? FieldName.multiple).getD false⟩ := by
  simp only [toDomain, bind_eq_ok, liftSketch_eq_ok, pure_eq_ok, exists_and_left, @eq_comm _ x]

theorem domainScope_congr {b b' : Workbench} {d : Definition} {dataType : String}
    {scope scope' : DomainScope} (h : d.domainScope b dataType = .ok scope)
    (h' : d.domainScope b' dataType = .ok scope') : scope = scope' := by
  by_cases ho : dataType = objectMarker
  · simp only [domainScope, if_pos ho] at h h'
    exact Except.ok.inj (h.symm.trans h')
  by_cases hv : dataType = valueObjectMarker
  · simp only [domainScope, if_neg ho, if_pos hv] at h h'
    exact Except.ok.inj (h.symm.trans h')
  · simp only [domainScope, if_neg ho, if_neg hv] at h h'
    obtain ⟨type, ht, -, -, -, rfl⟩ := primitiveScope_eq_ok.1 h
    obtain ⟨type', ht', -, -, -, rfl⟩ := primitiveScope_eq_ok.1 h'
    rw [Option.some.inj (ht.symm.trans ht')]

/-- A domain does not depend on the workbench, which only decides whether there is one. -/
theorem toDomain_congr {b b' : Workbench} {d : Definition} {x y : Domain}
    (hx : d.toDomain b = .ok x) (hy : d.toDomain b' = .ok y) : x = y := by
  obtain ⟨dataType, scope, hd, hs, rfl⟩ := toDomain_eq_ok.1 hx
  obtain ⟨dataType', scope', hd', hs', rfl⟩ := toDomain_eq_ok.1 hy
  obtain rfl : dataType = dataType' := Except.ok.inj (hd.symm.trans hd')
  rw [domainScope_congr hs hs']

/-! ## Attributes -/

theorem attributeDomain_eq_ok {b : Workbench} {d : Definition} {domain : String}
    (h : d.attributeDomain b = .ok domain) :
    d.requireTarget FieldName.domain = .ok domain ∧ b.preview.Has domain .domain := by
  simp only [attributeDomain, bind_eq_ok, liftSketch_eq_ok, discard_eq_ok, liftNotebook_eq_ok,
    pure_eq_ok] at h
  obtain ⟨domain, hd, u, ⟨s, hs⟩, rfl⟩ := h
  exact ⟨hd, Workbench.has_of_resolve hs⟩

theorem toIdDraft_eq_ok {b : Workbench} {d : Definition} {k : IdDraft}
    (h : d.toIdDraft b = .ok k) :
    ∃ domain label, d.requireTarget FieldName.domain = .ok domain ∧
      d.requireText FieldName.label = .ok label ∧ b.preview.Has domain .domain ∧
      k = ⟨d.key, label, domain⟩ := by
  simp only [toIdDraft, bind_eq_ok, liftSketch_eq_ok, pure_eq_ok] at h
  obtain ⟨domain, hd, label, hl, rfl⟩ := h
  obtain ⟨hd, hh⟩ := attributeDomain_eq_ok hd
  exact ⟨domain, label, hd, hl, hh, rfl⟩

theorem toDataDraft_eq_ok {b : Workbench} {d : Definition} {k : DataDraft}
    (h : d.toDataDraft b = .ok k) :
    ∃ domain label cardinality, d.requireTarget FieldName.domain = .ok domain ∧
      d.requireText FieldName.label = .ok label ∧ d.cardinalityOr .optional = .ok cardinality ∧
      b.preview.Has domain .domain ∧
      k = ⟨d.key, label, domain, cardinality, .own (d.flag? FieldName.persistent)⟩ := by
  simp only [toDataDraft, bind_eq_ok, liftSketch_eq_ok, pure_eq_ok] at h
  obtain ⟨domain, hd, label, hl, cardinality, hc, rfl⟩ := h
  obtain ⟨hd, hh⟩ := attributeDomain_eq_ok hd
  exact ⟨domain, label, cardinality, hd, hl, hc, hh, rfl⟩

theorem toComputedDraft_eq_ok {b : Workbench} {parent d : Definition} {k : ComputedDraft}
    (h : parent.toComputedDraft b d = .ok k) :
    ∃ domain label cardinality expression, d.requireTarget FieldName.domain = .ok domain ∧
      d.requireText FieldName.label = .ok label ∧ d.cardinalityOr .optional = .ok cardinality ∧
      d.requireText FieldName.expression = .ok expression ∧ b.preview.Has domain .domain ∧
      k = ⟨d.key, label, domain, cardinality, expression⟩ := by
  simp only [toComputedDraft, guard_eq_ok, bind_eq_ok, liftSketch_eq_ok, pure_eq_ok] at h
  obtain ⟨-, domain, hd, label, hl, cardinality, hc, expression, he, rfl⟩ := h
  obtain ⟨hd, hh⟩ := attributeDomain_eq_ok hd
  exact ⟨domain, label, cardinality, expression, hd, hl, hc, he, hh, rfl⟩

theorem toIdDraft_congr {b b' : Workbench} {d : Definition} {k l : IdDraft}
    (hk : d.toIdDraft b = .ok k) (hl : d.toIdDraft b' = .ok l) : k = l := by
  obtain ⟨domain, label, hd, ht, -, rfl⟩ := toIdDraft_eq_ok hk
  obtain ⟨domain', label', hd', ht', -, rfl⟩ := toIdDraft_eq_ok hl
  rw [Except.ok.inj (hd.symm.trans hd'), Except.ok.inj (ht.symm.trans ht')]

theorem toDataDraft_congr {b b' : Workbench} {d : Definition} {k l : DataDraft}
    (hk : d.toDataDraft b = .ok k) (hl : d.toDataDraft b' = .ok l) : k = l := by
  obtain ⟨domain, label, cardinality, hd, ht, hc, -, rfl⟩ := toDataDraft_eq_ok hk
  obtain ⟨domain', label', cardinality', hd', ht', hc', -, rfl⟩ := toDataDraft_eq_ok hl
  rw [Except.ok.inj (hd.symm.trans hd'), Except.ok.inj (ht.symm.trans ht'),
    Except.ok.inj (hc.symm.trans hc')]

theorem toComputedDraft_congr {b b' : Workbench} {parent d : Definition} {k l : ComputedDraft}
    (hk : parent.toComputedDraft b d = .ok k) (hl : parent.toComputedDraft b' d = .ok l) :
    k = l := by
  obtain ⟨domain, label, cardinality, expression, hd, ht, hc, he, -, rfl⟩ :=
    toComputedDraft_eq_ok hk
  obtain ⟨domain', label', cardinality', expression', hd', ht', hc', he', -, rfl⟩ :=
    toComputedDraft_eq_ok hl
  rw [Except.ok.inj (hd.symm.trans hd'), Except.ok.inj (ht.symm.trans ht'),
    Except.ok.inj (hc.symm.trans hc'), Except.ok.inj (he.symm.trans he')]

end Definition

/-! ## What attributes refer to -/

/-- The attribute is of a domain that is there, and refers to no entity definition. -/
structure Attribute.Native (b : Workbench) (a : Attribute) : Prop where
  domain : b.preview.Has a.domain .domain
  own : ∀ target, a.kind ≠ .foreignKey target

/-- The attribute is of a domain that an attribute of the origin has, and refers to the origin if to
anything. -/
structure Attribute.Copied (origin : EntityDefinition) (originName : String) (a : Attribute) :
    Prop where
  domain : ∃ shown ∈ origin.attributes, shown.domain = a.domain
  key : ∀ target, a.kind = .foreignKey target → target = originName

namespace Definition

section Attributes

variable {b : Workbench} {ds : List Definition}

theorem native_of_mem_ids {ids : List IdDraft} (h : ds.mapM (·.toIdDraft b) = .ok ids)
    {k : IdDraft} (hk : k ∈ ids) : k.attribute.Native b := by
  obtain ⟨d, -, hd⟩ := exists_of_mem_mapM h hk
  obtain ⟨_, _, -, -, hdomain, rfl⟩ := toIdDraft_eq_ok hd
  exact ⟨hdomain, by simp [IdDraft.attribute]⟩

theorem native_of_mem_data {data : List DataDraft} (h : ds.mapM (·.toDataDraft b) = .ok data)
    {k : DataDraft} (hk : k ∈ data) (persistent : Bool) : (k.attribute persistent).Native b := by
  obtain ⟨d, -, hd⟩ := exists_of_mem_mapM h hk
  obtain ⟨_, _, _, -, -, -, hdomain, rfl⟩ := toDataDraft_eq_ok hd
  exact ⟨hdomain, by simp [DataDraft.attribute]⟩

theorem native_of_mem_computed {parent : Definition} {computed : List ComputedDraft}
    (h : ds.mapM (parent.toComputedDraft b) = .ok computed) {k : ComputedDraft}
    (hk : k ∈ computed) : k.attribute.Native b := by
  obtain ⟨d, -, hd⟩ := exists_of_mem_mapM h hk
  obtain ⟨_, _, _, _, -, -, -, -, hdomain, rfl⟩ := toComputedDraft_eq_ok hd
  exact ⟨hdomain, by simp [ComputedDraft.attribute]⟩

end Attributes

/-! ## Drafts -/

/-- What holds of a draft when it is taken on: it can be built, its attributes are of domains that
are there or that attributes of other definitions have, and it refers to nothing but its origin. -/
structure Drafted (b : Workbench) (d : Definition) (x : EntityDraft) : Prop where
  name : x.name = d.key
  violations : x.violations = []
  domains : ∀ a ∈ x.attributes, b.preview.Has a.domain .domain ∨
    ∃ name e, b.preview.get? name = some (.entityDefinition e) ∧
      ∃ shown ∈ e.attributes, shown.domain = a.domain
  keys : ∀ a ∈ x.attributes, ∀ target, a.kind = .foreignKey target → x.origin = some target
  origin : ∀ o, x.origin = some o → b.preview.Has o .entityDefinition

theorem buildable_eq_ok {x y : EntityDraft} :
    buildable x = .ok y ↔ x = y ∧ x.violations = [] := by
  unfold buildable
  cases h : x.build with
  | ok e => simp [(EntityDraft.build_eq_ok.1 h).1]
  | error e =>
    have hv : x.violations ≠ [] := by
      intro hv
      rw [EntityDraft.build_eq_ok.2 ⟨hv, rfl⟩] at h
      cases h
    simp [hv]

theorem toEntityDraft_eq_ok {b : Workbench} {d : Definition} {x : EntityDraft}
    (h : d.toEntityDraft b = .ok x) :
    ∃ stereotype ids data computed, d.stereotype? = .ok stereotype ∧
      (d.childrenOf FieldName.ids).mapM (·.toIdDraft b) = .ok ids ∧
      (d.childrenOf FieldName.fields).mapM (·.toDataDraft b) = .ok data ∧
      (d.childrenOf FieldName.computed).mapM (d.toComputedDraft b) = .ok computed ∧
      x.violations = [] ∧
      x = ⟨d.key, d.package, stereotype, d.text? FieldName.dataSpace, ids, data, computed,
        d.text? FieldName.sortField, d.text? FieldName.displayField,
        d.text? FieldName.handleField, none⟩ := by
  simp only [toEntityDraft, bind_eq_ok, liftSketch_eq_ok, buildable_eq_ok] at h
  obtain ⟨stereotype, hs, ids, hi, data, hd, computed, hc, rfl, hv⟩ := h
  exact ⟨stereotype, ids, data, computed, hs, hi, hd, hc, hv, rfl⟩

theorem drafted_of_toEntityDraft {b : Workbench} {d : Definition} {x : EntityDraft}
    (h : d.toEntityDraft b = .ok x) : d.Drafted b x := by
  obtain ⟨stereotype, ids, data, computed, -, hi, hd, hc, hv, hx⟩ := toEntityDraft_eq_ok h
  have hnative : ∀ a ∈ x.attributes, a.Native b := by
    intro a ha
    subst hx
    rcases EntityDraft.mem_attributes.1 ha with ⟨k, hk, rfl⟩ | ⟨k, hk, rfl⟩ | ⟨k, hk, rfl⟩
    · exact native_of_mem_ids hi hk
    · exact native_of_mem_data hd hk _
    · exact native_of_mem_computed hc hk
  exact {
    name := by rw [hx]
    violations := hv
    domains := fun a ha => .inl (hnative a ha).domain
    keys := fun a ha target ht => absurd ht ((hnative a ha).own target)
    origin := by simp [hx] }

theorem toEntityDraft_congr {b b' : Workbench} {d : Definition} {x y : EntityDraft}
    (hx : d.toEntityDraft b = .ok x) (hy : d.toEntityDraft b' = .ok y) : x = y := by
  obtain ⟨stereotype, ids, data, computed, hs, hi, hd, hc, -, rfl⟩ := toEntityDraft_eq_ok hx
  obtain ⟨stereotype', ids', data', computed', hs', hi', hd', hc', -, rfl⟩ :=
    toEntityDraft_eq_ok hy
  rw [Except.ok.inj (hs.symm.trans hs'), mapM_congr hi hi' fun _ _ _ => toIdDraft_congr,
    mapM_congr hd hd' fun _ _ _ => toDataDraft_congr,
    mapM_congr hc hc' fun _ _ _ => toComputedDraft_congr]

/-! ## Fragments -/

/-- The draft of a fragment before it selects attributes. -/
def fragmentDraft (d : Definition) (origin : EntityDefinition) (originName : String)
    (aliases data : List DataDraft) (computed : List ComputedDraft) : EntityDraft where
  name := d.key
  package := d.package
  stereotype := none
  dataSpace := some ((d.text? FieldName.dataSpace).getD origin.dataSpace)
  ids := []
  data := aliases ++ data ++ backReference origin originName aliases
  computed := computed
  sort := none
  display := none
  handle := none
  origin := some originName

theorem toFragmentDraft_eq_ok {b : Workbench} {d : Definition} {x : EntityDraft}
    (h : d.toFragmentDraft b = .ok x) :
    ∃ originName origin aliases data computed,
      d.requireTarget FieldName.origin = .ok originName ∧
      b.entityDefinition originName = .ok origin ∧
      d.toAliases origin originName = .ok aliases ∧
      (d.childrenOf FieldName.fields).mapM (·.toDataDraft b) = .ok data ∧
      (d.childrenOf FieldName.computed).mapM (d.toComputedDraft b) = .ok computed ∧
      x.violations = [] ∧
      x = { d.fragmentDraft origin originName aliases data computed with
        sort := selection (d.text? FieldName.sortField) origin.sortAttribute?
          (d.fragmentDraft origin originName aliases data computed)
        display := selection (d.text? FieldName.displayField) origin.displayAttribute?
          (d.fragmentDraft origin originName aliases data computed)
        handle := selection (d.text? FieldName.handleField) origin.handleAttribute?
          (d.fragmentDraft origin originName aliases data computed) } := by
  simp only [toFragmentDraft, bind_eq_ok, liftSketch_eq_ok, buildable_eq_ok] at h
  obtain ⟨originName, ho, origin, he, aliases, ha, data, hd, computed, hc, rfl, hv⟩ := h
  exact ⟨originName, origin, aliases, data, computed, ho, he, ha, hd, hc, hv, rfl⟩

theorem toAlias_eq_ok {origin : EntityDefinition} {originName : String} {d : Definition}
    {k : DataDraft} (h : toAlias origin originName d = .ok k) :
    ∃ shown cardinality, origin.attribute? d.key = some shown ∧
      d.cardinalityOr shown.cardinality = .ok cardinality ∧
      k = ⟨d.key, (d.text? FieldName.label).getD shown.label, shown.domain, cardinality,
        if shown.isId then .foreignKey originName else .own (some false)⟩ := by
  unfold toAlias at h
  split at h
  · cases h
  · next shown hs =>
    simp only [bind_eq_ok, pure_eq_ok] at h
    obtain ⟨cardinality, hc, rfl⟩ := h
    exact ⟨shown, cardinality, hs, hc, rfl⟩

theorem mem_backReference {origin : EntityDefinition} {originName : String}
    {aliases : List DataDraft} {k : DataDraft} (h : k ∈ backReference origin originName aliases) :
    ∃ id, origin.id? = some id ∧
      k = ⟨id.name, id.label, id.domain, .one, .foreignKey originName⟩ := by
  unfold backReference at h
  split at h
  · cases h
  · split at h
    · next id hid => exact ⟨id, hid, List.mem_singleton.1 h⟩
    · cases h

section Copies

variable {origin : EntityDefinition} {originName : String} {aliases : List DataDraft}
  {k : DataDraft}

theorem copied_of_mem_aliases {d : Definition} (h : d.toAliases origin originName = .ok aliases)
    (hk : k ∈ aliases) (persistent : Bool) :
    (k.attribute persistent).Copied origin originName := by
  obtain ⟨c, -, hc⟩ := exists_of_mem_mapM h hk
  obtain ⟨shown, cardinality, hs, -, rfl⟩ := toAlias_eq_ok hc
  refine ⟨⟨shown, Named.mem_of_get? hs, by rw [DataDraft.domain_attribute]⟩, ?_⟩
  intro target ht
  rw [DataDraft.kind_attribute_eq_foreignKey_iff] at ht
  -- Only an alias of the identifier is a key.
  dsimp only at ht
  split at ht <;> cases ht
  rfl

theorem copied_of_mem_backReference (h : k ∈ backReference origin originName aliases)
    (persistent : Bool) : (k.attribute persistent).Copied origin originName := by
  obtain ⟨id, hid, rfl⟩ := mem_backReference h
  refine ⟨⟨id, List.mem_of_find?_eq_some hid, by rw [DataDraft.domain_attribute]⟩, ?_⟩
  intro target ht
  rw [DataDraft.kind_attribute_eq_foreignKey_iff] at ht
  cases ht
  rfl

end Copies

theorem drafted_of_toFragmentDraft {b : Workbench} {d : Definition} {x : EntityDraft}
    (h : d.toFragmentDraft b = .ok x) : d.Drafted b x := by
  obtain ⟨originName, origin, aliases, data, computed, -, ho, ha, hd, hc, hv, hx⟩ :=
    toFragmentDraft_eq_ok h
  have horigin := Workbench.get?_of_entityDefinition ho
  have hattributes : ∀ a ∈ x.attributes, a.Native b ∨ a.Copied origin originName := by
    intro a hax
    subst hx
    rcases EntityDraft.mem_attributes.1 hax with ⟨k, hk, rfl⟩ | ⟨k, hk, rfl⟩ | ⟨k, hk, rfl⟩
    · cases hk
    · rcases List.mem_append.1 hk with hk | hk
      · rcases List.mem_append.1 hk with hk | hk
        · exact .inr (copied_of_mem_aliases ha hk _)
        · exact .inl (native_of_mem_data hd hk _)
      · exact .inr (copied_of_mem_backReference hk _)
    · exact .inl (native_of_mem_computed hc hk)
  have hxo : x.origin = some originName := by
    rw [hx]
    rfl
  refine ⟨by rw [hx]; rfl, hv, ?_, ?_, ?_⟩
  · intro a hax
    rcases hattributes a hax with hnative | hcopied
    · exact .inl hnative.domain
    · exact .inr ⟨originName, origin, horigin, hcopied.domain⟩
  · intro a hax target ht
    rcases hattributes a hax with hnative | hcopied
    · exact absurd ht (hnative.own target)
    · rw [hxo, hcopied.key target ht]
  · intro o hox
    rw [hxo] at hox
    cases hox
    exact ⟨_, horigin, rfl⟩

/-- An alias does not depend on how far its origin has grown. -/
theorem toAlias_congr {origin origin' e : EntityDefinition} (ho : origin.Grows e)
    (ho' : origin'.Grows e) {originName : String} {d : Definition} {k l : DataDraft}
    (hk : toAlias origin originName d = .ok k) (hl : toAlias origin' originName d = .ok l) :
    k = l := by
  obtain ⟨shown, cardinality, hs, hc, rfl⟩ := toAlias_eq_ok hk
  obtain ⟨shown', cardinality', hs', hc', rfl⟩ := toAlias_eq_ok hl
  obtain rfl : shown = shown' := Option.some.inj
    ((ho.attributes _ _ hs).symm.trans (ho'.attributes _ _ hs'))
  rw [Except.ok.inj (hc.symm.trans hc')]

theorem backReference_congr {origin origin' e : EntityDefinition} (ho : origin.Grows e)
    (ho' : origin'.Grows e) (originName : String) (aliases : List DataDraft) :
    backReference origin originName aliases = backReference origin' originName aliases := by
  rw [backReference, backReference, ← ho.id, ← ho'.id]

/-- A fragment does not depend on how far its origin has grown. -/
theorem toFragmentDraft_congr {b b' : Workbench} {n : Notebook} (hb : b.preview.Grows n)
    (hb' : b'.preview.Grows n) {d : Definition} {x y : EntityDraft}
    (hx : d.toFragmentDraft b = .ok x) (hy : d.toFragmentDraft b' = .ok y) : x = y := by
  obtain ⟨originName, origin, aliases, data, computed, hn, ho, ha, hd, hc, -, rfl⟩ :=
    toFragmentDraft_eq_ok hx
  obtain ⟨originName', origin', aliases', data', computed', hn', ho', ha', hd', hc', -, rfl⟩ :=
    toFragmentDraft_eq_ok hy
  obtain rfl : originName = originName' := Except.ok.inj (hn.symm.trans hn')
  obtain ⟨e, he, hoe⟩ := hb.definition (Workbench.get?_of_entityDefinition ho)
  obtain ⟨e', he', hoe'⟩ := hb'.definition (Workbench.get?_of_entityDefinition ho')
  obtain rfl : e = e' := by
    rw [he] at he'
    exact Sketch.entityDefinition.inj (Option.some.inj he')
  obtain rfl : aliases = aliases' := mapM_congr ha ha' fun _ _ _ => toAlias_congr hoe hoe'
  obtain rfl : data = data' := mapM_congr hd hd' fun _ _ _ => toDataDraft_congr
  obtain rfl : computed = computed' := mapM_congr hc hc' fun _ _ _ => toComputedDraft_congr
  have hdraft : d.fragmentDraft origin originName aliases data computed =
      d.fragmentDraft origin' originName aliases data computed := by
    rw [fragmentDraft, fragmentDraft, backReference_congr hoe hoe', ← hoe.dataSpace,
      ← hoe'.dataSpace]
  rw [hdraft, ← hoe.sortAttribute?, ← hoe'.sortAttribute?, ← hoe.displayAttribute?,
    ← hoe'.displayAttribute?, ← hoe.handleAttribute?, ← hoe'.handleAttribute?]

/-! ## Associations -/

/-- The primary end is the single-valued one. -/
theorem primarySide_eq_ok {d : Definition} {shapes : EndShapes} {side : Side} :
    d.primarySide shapes = .ok side ↔
      (side.pick shapes.multiplicityA shapes.multiplicityB).isMany = false ∧
        (side.other.pick shapes.multiplicityA shapes.multiplicityB).isMany = true := by
  unfold primarySide
  cases side <;> cases hA : shapes.multiplicityA.isMany <;>
    cases hB : shapes.multiplicityB.isMany <;> simp [Side.pick, Side.other, hA, hB]

theorem ends_eq_ok {d : Definition} {definitionA definitionB : String} {shapes : EndShapes}
    {endA endB : AssociationEnd} (h : d.ends definitionA definitionB shapes = .ok (endA, endB)) :
    endA.definition = definitionA ∧ endB.definition = definitionB ∧
      endA.multiplicity = shapes.multiplicityA ∧ endB.multiplicity = shapes.multiplicityB := by
  simp only [ends, bind_eq_ok, pure_eq_ok, Prod.exists, Prod.mk.injEq] at h
  obtain ⟨roleA, roleB, -, rfl, rfl⟩ := h
  exact ⟨rfl, rfl, rfl, rfl⟩

/-- Of the ends of a simple association just the primary one is single-valued. -/
theorem simpleEnds_eq_ok {d : Definition} {endA endB : AssociationEnd} {side : Side}
    (h : d.simpleEnds = .ok (endA, endB, side)) :
    (side.pick endA endB).multiplicity.isMany = false ∧
      (side.other.pick endA endB).multiplicity.isMany = true := by
  simp only [simpleEnds, bind_eq_ok, pure_eq_ok, Prod.exists, Prod.mk.injEq] at h
  obtain ⟨_, -, _, -, shapes, -, primary, hs, _, _, he, rfl, rfl, rfl⟩ := h
  obtain ⟨-, -, ha, hb⟩ := ends_eq_ok he
  have hmany := primarySide_eq_ok.1 hs
  rw [← ha, ← hb] at hmany
  cases primary <;> exact hmany

/-- A simple association refers to the identifier of its primary end by a new foreign key of the
draft at the other end. -/
theorem toSimple_eq_ok {b : Workbench} {d : Definition} {a : Association} {foreign : String}
    {key : DataDraft} :
    d.toSimple b = .ok (a, foreign, key) ↔
      ∃ endA endB side e id draft, d.simpleEnds = .ok (endA, endB, side) ∧
        b.entityDefinition (side.pick endA endB).definition = .ok e ∧ e.id? = some id ∧
        b.draft foreign = .ok draft ∧ draft.hasAttribute key.name = false ∧
        foreign = (side.other.pick endA endB).definition ∧
        key = d.foreignKey (side.pick endA endB) id ∧
        a = ⟨d.key, d.package, endA, endB, .foreignKey side key.name⟩ := by
  simp only [toSimple, bind_eq_ok, liftSketch_eq_ok, Prod.exists]
  constructor
  · rintro ⟨endA, endB, side, hends, e, he, h⟩
    split at h
    · next id hid =>
      simp only [bind_eq_ok, guard_eq_ok, pure_eq_ok, Prod.mk.injEq, Bool.not_eq_true] at h
      obtain ⟨draft, hdraft, hfree, rfl, rfl, rfl⟩ := h
      exact ⟨endA, endB, side, e, id, draft, hends, he, hid, hdraft, hfree, rfl, rfl, rfl⟩
    · cases h
  · rintro ⟨endA, endB, side, e, id, draft, hends, he, hid, hdraft, hfree, rfl, rfl, rfl⟩
    refine ⟨endA, endB, side, hends, e, he, ?_⟩
    rw [hid]
    simp only [bind_eq_ok, guard_eq_ok, pure_eq_ok, Bool.not_eq_true]
    exact ⟨draft, hdraft, hfree, trivial⟩

theorem name_of_toSimple {b : Workbench} {d : Definition} {a : Association} {foreign : String}
    {key : DataDraft} (h : d.toSimple b = .ok (a, foreign, key)) : a.name = d.key := by
  obtain ⟨_, _, _, _, _, _, -, -, -, -, -, -, -, rfl⟩ := toSimple_eq_ok.1 h
  rfl

/-- A simple association does not depend on how far its ends have grown. -/
theorem toSimple_congr {b b' : Workbench} {n : Notebook} (hb : b.preview.Grows n)
    (hb' : b'.preview.Grows n) {d : Definition} {a a' : Association} {foreign foreign' : String}
    {key key' : DataDraft} (h : d.toSimple b = .ok (a, foreign, key))
    (h' : d.toSimple b' = .ok (a', foreign', key')) : a = a' ∧ foreign = foreign' ∧ key = key' := by
  obtain ⟨endA, endB, side, e, id, _, hends, he, hid, -, -, rfl, rfl, rfl⟩ := toSimple_eq_ok.1 h
  obtain ⟨endA', endB', side', e', id', _, hends', he', hid', -, -, rfl, rfl, rfl⟩ :=
    toSimple_eq_ok.1 h'
  rw [hends] at hends'
  cases hends'
  obtain ⟨f, hf, hef⟩ := hb.definition (Workbench.get?_of_entityDefinition he)
  obtain ⟨f', hf', hef'⟩ := hb'.definition (Workbench.get?_of_entityDefinition he')
  rw [hf] at hf'
  cases hf'
  obtain rfl : id = id' := by
    rw [← hef.id, hef'.id, hid'] at hid
    exact (Option.some.inj hid).symm
  exact ⟨rfl, rfl, rfl⟩

theorem toManyToMany_eq_ok {b : Workbench} {d : Definition} {a : Association}
    (h : d.toManyToMany b = .ok a) :
    ∃ definitionA definitionB endA endB table,
      d.requireTarget FieldName.definitionA = .ok definitionA ∧
      d.requireTarget FieldName.definitionB = .ok definitionB ∧
      b.preview.Has definitionA .entityDefinition ∧ b.preview.Has definitionB .entityDefinition ∧
      d.requireText FieldName.tableName = .ok table ∧
      d.ends definitionA definitionB ⟨.zeroOrMany, .zeroOrMany,
        (d.flag? FieldName.navigabilityA).getD true,
        (d.flag? FieldName.navigabilityB).getD true⟩ = .ok (endA, endB) ∧
      a = ⟨d.key, d.package, endA, endB, .joinTable (trim table)⟩ := by
  simp only [toManyToMany, bind_eq_ok, liftSketch_eq_ok, discard_eq_ok, guard_eq_ok, pure_eq_ok,
    Prod.exists] at h
  obtain ⟨definitionA, ha, definitionB, hb, _, ⟨e, he⟩, _, ⟨f, hf⟩, table, ht, -, endA, endB, hends,
    rfl⟩ := h
  exact ⟨definitionA, definitionB, endA, endB, table, ha, hb,
    ⟨_, Workbench.get?_of_entityDefinition he, rfl⟩,
    ⟨_, Workbench.get?_of_entityDefinition hf, rfl⟩, ht, hends, rfl⟩

theorem toManyToMany_congr {b b' : Workbench} {d : Definition} {a a' : Association}
    (h : d.toManyToMany b = .ok a) (h' : d.toManyToMany b' = .ok a') : a = a' := by
  obtain ⟨definitionA, definitionB, endA, endB, table, ha, hb, -, -, ht, hends, rfl⟩ :=
    toManyToMany_eq_ok h
  obtain ⟨definitionA', definitionB', endA', endB', table', ha', hb', -, -, ht', hends', rfl⟩ :=
    toManyToMany_eq_ok h'
  obtain rfl : definitionA = definitionA' := Except.ok.inj (ha.symm.trans ha')
  obtain rfl : definitionB = definitionB' := Except.ok.inj (hb.symm.trans hb')
  rw [hends] at hends'
  cases hends'
  rw [Except.ok.inj (ht.symm.trans ht')]

end Definition

end Metamodel
