import Metamodel.Proofs.Buildability
import Metamodel.Proofs.Construction
import Metamodel.Proofs.Coverage

set_option autoImplicit false

/-! # Fragments

A fragment shows a part of an entity definition, its origin. This module says from a definition and
the present state of its origin what the fragment is (`Definition.IsFragment`) and what keeps it from
being constructed (`Definition.FragmentFault`), neither of which mentions drafts; `fragment_exact`
compares both with the construction.

A selection that the fragment takes over from its origin is not among the faults: it is taken over
only if the fragment has an attribute of that name. -/

namespace Metamodel

theorem Cardinality.ofSign?_eq_some_iff {s : String} {c : Cardinality} :
    ofSign? s = some c ↔ c.sign = s := by
  constructor
  · intro h
    simpa using List.find?_some h
  · rintro rfl
    cases c <;> rfl

namespace Definition

/-! ## What fragments are -/

/-- The cardinality is the one that the definition of an attribute gives, or else the default. -/
def GivesCardinality (c : Definition) (default cardinality : Cardinality) : Prop :=
  match c.text? FieldName.cardinality with
  | none => cardinality = default
  | some sign => cardinality.sign = sign

/-- The definition of an attribute gives a cardinality that there is not. -/
def GivesNoCardinality (c : Definition) (sign : String) : Prop :=
  c.text? FieldName.cardinality = some sign ∧ ∀ cardinality : Cardinality, cardinality.sign ≠ sign

/-- The attribute that an alias shows: for the identifier of the origin a foreign key to the origin,
for any other attribute data that is not stored. The alias may give another label or cardinality. -/
inductive Shows (origin : EntityDefinition) (originName : String) (c : Definition) :
    Attribute → Prop
  | data {shown : Attribute} {cardinality : Cardinality}
    (found : origin.attribute? c.key = some shown) (plain : shown.isId = false)
    (given : c.GivesCardinality shown.cardinality cardinality) :
    Shows origin originName c ⟨c.key, (c.text? FieldName.label).getD shown.label, .data,
      cardinality, false, shown.domain⟩
  | identifier {shown : Attribute} {cardinality : Cardinality}
    (found : origin.attribute? c.key = some shown) (identifies : shown.isId = true)
    (given : c.GivesCardinality shown.cardinality cardinality) :
    Shows origin originName c ⟨c.key, (c.text? FieldName.label).getD shown.label,
      .foreignKey originName, cardinality, false, shown.domain⟩

/-- The data attribute that a child describes. It is not stored unless it says so. -/
def IsOwnData (c : Definition) (a : Attribute) : Prop :=
  ∃ domain label cardinality, c.target? FieldName.domain = some domain ∧
    c.text? FieldName.label = some label ∧ c.GivesCardinality .optional cardinality ∧
    a = ⟨c.key, label, .data, cardinality, (c.flag? FieldName.persistent).getD false, domain⟩

/-- The computed attribute that a child describes. -/
def IsComputed (c : Definition) (a : Attribute) : Prop :=
  ∃ domain label cardinality expression, c.target? FieldName.domain = some domain ∧
    c.text? FieldName.label = some label ∧ c.GivesCardinality .optional cardinality ∧
    c.text? FieldName.expression = some expression ∧
    a = ⟨c.key, label, .computed expression, cardinality, false, domain⟩

/-- Whether an alias names the identifier of the origin. -/
def namesIdentifier (d : Definition) (origin : EntityDefinition) : Bool :=
  (d.childrenOf FieldName.aliases).any fun c => (origin.attribute? c.key).any Attribute.isId

/-- The identifier of the origin, if it has one that no alias names. -/
def unnamedIdentifier (d : Definition) (origin : EntityDefinition) : List Attribute :=
  if d.namesIdentifier origin then [] else origin.id?.toList

/-- The names of the attributes of the fragment, in order. -/
def fragmentNames (d : Definition) (origin : EntityDefinition) : List String :=
  (d.childrenOf FieldName.aliases).map key ++ (d.childrenOf FieldName.fields).map key ++
    (d.unnamedIdentifier origin).map Attribute.name ++ (d.childrenOf FieldName.computed).map key

/-- The data space of the fragment: its own one, or else that of its origin. -/
def fragmentSpace (d : Definition) (origin : EntityDefinition) : String :=
  (d.text? FieldName.dataSpace).getD origin.dataSpace

/-- The name of an attribute that is selected: the given one, or else the one that the origin selects
if it is among the names of the fragment. -/
def selects (d : Definition) (field : String) (inherited : Option Attribute)
    (names : List String) : Option String :=
  match d.text? field with
  | some given => some given
  | none => (inherited.map Attribute.name).filter (· ∈ names)

/-- The entity definition is the fragment that `d` describes, of an origin in its present state. -/
structure IsFragment (d : Definition) (originName : String) (origin e : EntityDefinition) :
    Prop where
  name : e.name = d.key
  package : e.package = d.package
  stereotype : e.stereotype = .fragment
  ofOrigin : e.origin = some originName
  dataSpace : e.dataSpace = d.fragmentSpace origin
  attributes : ∃ shown own computed,
    List.Forall₂ (Shows origin originName) (d.childrenOf FieldName.aliases) shown ∧
    List.Forall₂ IsOwnData (d.childrenOf FieldName.fields) own ∧
    List.Forall₂ IsComputed (d.childrenOf FieldName.computed) computed ∧
    e.attributes = shown ++ own ++
      (d.unnamedIdentifier origin).map (fun id =>
        ⟨id.name, id.label, .foreignKey originName, .one, false, id.domain⟩) ++
      computed
  sort : e.sort = d.selects FieldName.sortField origin.sortAttribute? (Named.names e.attributes)
  display : e.display =
    d.selects FieldName.displayField origin.displayAttribute? (Named.names e.attributes)
  handle : e.handle =
    d.selects FieldName.handleField origin.handleAttribute? (Named.names e.attributes)

/-! ## What keeps fragments from being constructed -/

/-- What is wrong with a child that describes an attribute: its domain is no finished domain, or there
is no such cardinality. -/
inductive AttributeFault (b : Workbench) (c : Definition) : ModelError → Prop
  | domain {name : String} {e : NotebookError} (named : c.target? FieldName.domain = some name)
    (unresolved : b.resolve name .domain = .error e) : AttributeFault b c (.notebook e)
  | cardinality {sign : String} (given : c.GivesNoCardinality sign) :
    AttributeFault b c (.broken c.key (.unknownCardinality sign))

/-- What keeps a fragment of an origin from being constructed, each with the error for it. -/
inductive FragmentFault (b : Workbench) (d : Definition) (originName : String)
    (origin : EntityDefinition) : ModelError → Prop
  | unknownAlias {c : Definition} (listed : c ∈ d.childrenOf FieldName.aliases)
    (unknown : origin.attribute? c.key = none) :
    FragmentFault b d originName origin (.sketch (.attributeNotFound originName c.key))
  | aliasCardinality {c : Definition} {sign : String} (listed : c ∈ d.childrenOf FieldName.aliases)
    (given : c.GivesNoCardinality sign) :
    FragmentFault b d originName origin (.broken c.key (.unknownCardinality sign))
  | child {c : Definition} {e : ModelError}
    (own : c ∈ d.childrenOf FieldName.fields ∨ c ∈ d.childrenOf FieldName.computed)
    (fault : AttributeFault b c e) : FragmentFault b d originName origin e
  | persistentComputed {c : Definition} (computed : c ∈ d.childrenOf FieldName.computed)
    (persistent : c.flag? FieldName.persistent = some true) :
    FragmentFault b d originName origin (.broken d.key (.persistentComputed c.key))
  | dataSpace (malformed : ¬IsDataSpaceName (d.fragmentSpace origin)) :
    FragmentFault b d originName origin
      (.broken d.key (.malformedDataSpace (d.fragmentSpace origin)))
  | duplicate {name : String} (twice : 1 < (d.fragmentNames origin).count name) :
    FragmentFault b d originName origin (.broken d.key (.duplicateAttribute name))
  | selection {field name : String}
    (selects : field ∈ [FieldName.sortField, FieldName.displayField, FieldName.handleField])
    (given : d.text? field = some name) (missing : name ∉ d.fragmentNames origin) :
    FragmentFault b d originName origin (.sketch (.attributeNotFound d.key name))

/-! ## Attributes -/

section Attributes

variable {c : Definition}

theorem cardinalityOr_eq_ok {default cardinality : Cardinality} :
    c.cardinalityOr default = .ok cardinality ↔ c.GivesCardinality default cardinality := by
  unfold cardinalityOr GivesCardinality
  cases c.text? FieldName.cardinality with
  | none => simp [eq_comm]
  | some sign =>
    show _ ↔ cardinality.sign = sign
    rw [← Cardinality.ofSign?_eq_some_iff]
    cases h : Cardinality.ofSign? sign <;> simp [h]

theorem cardinalityOr_eq_error {default : Cardinality} {e : SketchError} :
    c.cardinalityOr default = .error e ↔
      ∃ sign, c.GivesNoCardinality sign ∧ e = .broken c.key (.unknownCardinality sign) := by
  unfold cardinalityOr GivesNoCardinality
  cases c.text? FieldName.cardinality with
  | none => simp
  | some sign =>
    cases h : Cardinality.ofSign? sign with
    | none =>
      have hnone : ∀ cardinality : Cardinality, cardinality.sign ≠ sign := by
        intro cardinality hc
        simp [Cardinality.ofSign?_eq_some_iff.2 hc] at h
      simp only [h, Except.error.injEq, Option.some.injEq]
      constructor
      · intro he
        exact ⟨sign, ⟨rfl, hnone⟩, he.symm⟩
      · rintro ⟨_, ⟨rfl, -⟩, rfl⟩
        rfl
    | some cardinality =>
      have hsign := Cardinality.ofSign?_eq_some_iff.1 h
      simp only [h, reduceCtorEq, Option.some.injEq, false_iff]
      rintro ⟨_, ⟨rfl, hnone⟩, -⟩
      exact hnone cardinality hsign

variable {b : Workbench} {e : ModelError}

theorem AttributeFault.of_cardinalityOr {default : Cardinality}
    (h : (c.cardinalityOr default).mapError ModelError.sketch = .error e) :
    AttributeFault b c e := by
  obtain ⟨e', he', rfl⟩ := mapError_eq_error.1 h
  obtain ⟨sign, hsign, rfl⟩ := cardinalityOr_eq_error.1 he'
  exact .cardinality hsign

theorem GivesNoCardinality.cardinalityOr_ne_ok {sign : String} (h : c.GivesNoCardinality sign)
    {default cardinality : Cardinality} : c.cardinalityOr default ≠ .ok cardinality := by
  intro hok
  cases hok.symm.trans (cardinalityOr_eq_error.2 ⟨sign, h, rfl⟩)

/-- A required text that is served is not what a chain of steps fails at. -/
theorem of_requireText_bind_eq_error {α : Type} {field : String}
    {f : String → Except ModelError α} (hserved : (Access.neededText field).Served c)
    (h : ((c.requireText field).mapError ModelError.sketch >>= f) = .error e) :
    ∃ text, f text = .error e := by
  obtain ⟨text, htext⟩ := requireText_of_served hserved
  rw [htext] at h
  exact ⟨text, h⟩

theorem AttributeFault.of_attributeDomain
    (hserved : (Access.neededTarget FieldName.domain).Served c)
    (h : c.attributeDomain b = .error e) : AttributeFault b c e := by
  obtain ⟨name, hname⟩ := requireTarget_of_served hserved
  rcases bind_eq_error.1 h with h | ⟨name', hname', h⟩
  · obtain ⟨e', he', -⟩ := mapError_eq_error.1 h
    cases hname.symm.trans he'
  cases hname.symm.trans (mapError_eq_ok.1 hname')
  rcases bind_eq_error.1 h with h | ⟨_, -, h⟩
  · obtain ⟨e', he', rfl⟩ := mapError_eq_error.1 (map_eq_error.1 h)
    exact .domain (requireTarget_eq_ok.1 hname) he'
  · cases h

theorem AttributeFault.of_toDataDraft
    (hserved : ∀ a ∈ EntityKind.dataField.accesses, a.Served c)
    (h : c.toDataDraft b = .error e) : AttributeFault b c e := by
  rcases bind_eq_error.1 h with h | ⟨_, -, h⟩
  · exact .of_attributeDomain (hserved _ (by simp [EntityKind.accesses])) h
  obtain ⟨_, h⟩ := of_requireText_bind_eq_error (hserved _ (by simp [EntityKind.accesses])) h
  rcases bind_eq_error.1 h with h | ⟨_, -, h⟩
  · exact .of_cardinalityOr h
  · cases h

theorem AttributeFault.of_toComputedDraft {d : Definition}
    (hserved : ∀ a ∈ EntityKind.computedField.accesses, a.Served c)
    (h : d.toComputedDraft b c = .error e) :
    (c.flag? FieldName.persistent = some true ∧
      e = .broken d.key (.persistentComputed c.key)) ∨ AttributeFault b c e := by
  unfold toComputedDraft at h
  by_cases hp : c.flag? FieldName.persistent = some true
  · rw [if_pos hp] at h
    cases h
    exact .inl ⟨hp, rfl⟩
  rw [if_neg hp] at h
  refine .inr ?_
  rcases bind_eq_error.1 h with h | ⟨_, -, h⟩
  · exact .of_attributeDomain (hserved _ (by simp [EntityKind.accesses])) h
  obtain ⟨_, h⟩ := of_requireText_bind_eq_error (hserved _ (by simp [EntityKind.accesses])) h
  rcases bind_eq_error.1 h with h | ⟨_, -, h⟩
  · exact .of_cardinalityOr h
  obtain ⟨_, h⟩ := of_requireText_bind_eq_error (hserved _ (by simp [EntityKind.accesses])) h
  cases h

theorem AttributeFault.not_of_eq_ok {domain : String} {cardinality : Cardinality}
    (h : AttributeFault b c e) (hd : c.attributeDomain b = .ok domain)
    (hc : c.cardinalityOr .optional = .ok cardinality) : False := by
  cases h with
  | domain named unresolved =>
    simp only [attributeDomain, bind_eq_ok, liftSketch_eq_ok, discard_eq_ok, liftNotebook_eq_ok,
      requireTarget_eq_ok] at hd
    obtain ⟨name, hname, -, ⟨_, hresolve⟩, -⟩ := hd
    cases named.symm.trans hname
    cases unresolved.symm.trans hresolve
  | cardinality given => exact given.cardinalityOr_ne_ok hc

theorem AttributeFault.toDataDraft_ne_ok (h : AttributeFault b c e) {k : DataDraft} :
    c.toDataDraft b ≠ .ok k := by
  intro hk
  simp only [toDataDraft, bind_eq_ok, liftSketch_eq_ok] at hk
  obtain ⟨_, hd, _, -, _, hc, -⟩ := hk
  exact h.not_of_eq_ok hd hc

theorem AttributeFault.toComputedDraft_ne_ok {d : Definition} (h : AttributeFault b c e)
    {k : ComputedDraft} : d.toComputedDraft b c ≠ .ok k := by
  intro hk
  simp only [toComputedDraft, guard_eq_ok, bind_eq_ok, liftSketch_eq_ok] at hk
  obtain ⟨-, _, hd, _, -, _, hc, -⟩ := hk
  exact h.not_of_eq_ok hd hc

theorem FragmentFault.of_toAlias {d : Definition} {origin : EntityDefinition}
    {originName : String} (hc : c ∈ d.childrenOf FieldName.aliases) {e : SketchError}
    (h : toAlias origin originName c = .error e) :
    FragmentFault b d originName origin (.sketch e) := by
  unfold toAlias at h
  cases hshown : origin.attribute? c.key with
  | none =>
    simp only [hshown] at h
    cases h
    exact .unknownAlias hc hshown
  | some shown =>
    simp only [hshown] at h
    rcases bind_eq_error.1 h with h | ⟨_, -, h⟩
    · obtain ⟨sign, hsign, rfl⟩ := cardinalityOr_eq_error.1 h
      exact .aliasCardinality hc hsign
    · cases h

end Attributes

theorem buildable_eq_error {x : EntityDraft} {e : ModelError} (h : buildable x = .error e) :
    ∃ v ∈ x.violations, e = .sketch v := by
  unfold buildable EntityDraft.build at h
  cases hv : x.violations with
  | nil => simp [hv] at h
  | cons v vs =>
    simp only [hv] at h
    cases h
    exact ⟨v, List.mem_cons_self, rfl⟩

/-! ## Drafts of fragments -/

/-- The draft of a fragment with what it selects. -/
def selectingDraft (d : Definition) (origin : EntityDefinition) (originName : String)
    (aliases data : List DataDraft) (computed : List ComputedDraft) : EntityDraft :=
  let draft := d.fragmentDraft origin originName aliases data computed
  { draft with
    sort := selection (d.text? FieldName.sortField) origin.sortAttribute? draft
    display := selection (d.text? FieldName.displayField) origin.displayAttribute? draft
    handle := selection (d.text? FieldName.handleField) origin.handleAttribute? draft }

/-- What the children of the definition of a fragment become. -/
structure Assembled (b : Workbench) (d : Definition) (origin : EntityDefinition)
    (originName : String) (aliases data : List DataDraft) (computed : List ComputedDraft) :
    Prop where
  aliases : d.toAliases origin originName = .ok aliases
  data : (d.childrenOf FieldName.fields).mapM (·.toDataDraft b) = .ok data
  computed : (d.childrenOf FieldName.computed).mapM (d.toComputedDraft b) = .ok computed

section Drafts

variable {b : Workbench} {d : Definition} {origin : EntityDefinition} {originName : String}

/-- With its origin at hand, a fragment is constructed from its parts. -/
theorem toFragmentDraft_eq (hname : d.requireTarget FieldName.origin = .ok originName)
    (horigin : b.entityDefinition originName = .ok origin) :
    d.toFragmentDraft b = (do
      let aliases ← d.toAliases origin originName
      let data ← (d.childrenOf FieldName.fields).mapM (·.toDataDraft b)
      let computed ← (d.childrenOf FieldName.computed).mapM (d.toComputedDraft b)
      buildable (d.selectingDraft origin originName aliases data computed)) := by
  simp only [toFragmentDraft, hname]
  show (b.entityDefinition originName >>= _) = _
  rw [horigin]
  rfl

theorem toFragmentDraft_eq_ok_iff (hname : d.requireTarget FieldName.origin = .ok originName)
    (horigin : b.entityDefinition originName = .ok origin) {x : EntityDraft} :
    d.toFragmentDraft b = .ok x ↔ ∃ aliases data computed,
      Assembled b d origin originName aliases data computed ∧ x.violations = [] ∧
        x = d.selectingDraft origin originName aliases data computed := by
  rw [toFragmentDraft_eq hname horigin]
  simp only [bind_eq_ok, liftSketch_eq_ok, buildable_eq_ok]
  constructor
  · rintro ⟨aliases, ha, data, hd, computed, hc, rfl, hv⟩
    exact ⟨aliases, data, computed, ⟨ha, hd, hc⟩, hv, rfl⟩
  · rintro ⟨aliases, data, computed, ⟨ha, hd, hc⟩, hv, rfl⟩
    exact ⟨aliases, ha, data, hd, computed, hc, rfl, hv⟩

theorem selection_eq (field : String) (inherited : Option Attribute) (draft : EntityDraft) :
    selection (d.text? field) inherited draft =
      d.selects field inherited draft.attributeNames := by
  rw [selection, selects]
  cases d.text? field with
  | some given => rfl
  | none =>
    rw [Option.none_or]
    congr 1
    funext name
    exact List.contains_eq_mem name _

variable {aliases data : List DataDraft} {computed : List ComputedDraft}
  (h : Assembled b d origin originName aliases data computed)
include h

namespace Assembled

/-- The identifier of the origin is shown by an alias just if one of the aliases is a foreign key. -/
theorem backReference_eq : backReference origin originName aliases =
    (d.unnamedIdentifier origin).map fun id =>
      ⟨id.name, id.label, id.domain, .one, .foreignKey originName⟩ := by
  have hany : aliases.any (·.role = .foreignKey originName) = d.namesIdentifier origin := by
    have hmap : aliases.map (fun k => decide (k.role = .foreignKey originName)) =
        (d.childrenOf FieldName.aliases).map
          (fun c => (origin.attribute? c.key).any Attribute.isId) := by
      refine map_eq_map_of_mapM h.aliases fun c k hk => ?_
      obtain ⟨shown, _, hshown, -, rfl⟩ := toAlias_eq_ok hk
      cases hid : shown.isId <;> simp [hshown, hid]
    simpa [List.any_map, namesIdentifier] using congrArg (·.any id) hmap
  rw [backReference, unnamedIdentifier, hany]
  cases d.namesIdentifier origin <;> cases origin.id? <;> rfl

theorem attributeNames_eq :
    (d.fragmentDraft origin originName aliases data computed).attributeNames =
      d.fragmentNames origin := by
  have haliases : aliases.map DataDraft.name = (d.childrenOf FieldName.aliases).map key := by
    refine map_eq_map_of_mapM h.aliases fun c k hk => ?_
    obtain ⟨_, _, -, -, rfl⟩ := toAlias_eq_ok hk
    rfl
  have hdata : data.map DataDraft.name = (d.childrenOf FieldName.fields).map key := by
    refine map_eq_map_of_mapM h.data fun c k hk => ?_
    obtain ⟨_, _, _, -, -, -, -, rfl⟩ := toDataDraft_eq_ok hk
    rfl
  have hcomputed :
      computed.map ComputedDraft.name = (d.childrenOf FieldName.computed).map key := by
    refine map_eq_map_of_mapM h.computed fun c k hk => ?_
    obtain ⟨_, _, _, _, -, -, -, -, -, rfl⟩ := toComputedDraft_eq_ok hk
    rfl
  simp only [EntityDraft.attributeNames, fragmentDraft, List.map_nil, List.nil_append,
    List.map_append, haliases, hdata, hcomputed, h.backReference_eq, List.map_map, fragmentNames,
    Function.comp_def]

/-! ### What is built -/

theorem shows : List.Forall₂ (Shows origin originName) (d.childrenOf FieldName.aliases)
    (aliases.map (DataDraft.attribute false)) := by
  rw [List.forall₂_map_right_iff]
  refine (mapM_eq_ok.1 h.aliases).imp fun c k hk => ?_
  obtain ⟨shown, cardinality, hshown, hc, rfl⟩ := toAlias_eq_ok hk
  rw [cardinalityOr_eq_ok] at hc
  cases hid : shown.isId with
  | false => exact .data hshown hid hc
  | true => exact .identifier hshown hid hc

theorem isOwnData : List.Forall₂ IsOwnData (d.childrenOf FieldName.fields)
    (data.map (DataDraft.attribute false)) := by
  rw [List.forall₂_map_right_iff]
  refine (mapM_eq_ok.1 h.data).imp fun c k hk => ?_
  obtain ⟨domain, label, cardinality, hd, hl, hc, -, rfl⟩ := toDataDraft_eq_ok hk
  exact ⟨domain, label, cardinality, requireTarget_eq_ok.1 hd, requireText_eq_ok.1 hl,
    cardinalityOr_eq_ok.1 hc, rfl⟩

theorem isComputed : List.Forall₂ IsComputed (d.childrenOf FieldName.computed)
    (computed.map ComputedDraft.attribute) := by
  rw [List.forall₂_map_right_iff]
  refine (mapM_eq_ok.1 h.computed).imp fun c k hk => ?_
  obtain ⟨domain, label, cardinality, expression, hd, hl, hc, he, -, rfl⟩ :=
    toComputedDraft_eq_ok hk
  exact ⟨domain, label, cardinality, expression, requireTarget_eq_ok.1 hd,
    requireText_eq_ok.1 hl, cardinalityOr_eq_ok.1 hc, requireText_eq_ok.1 he, rfl⟩

theorem isFragment : d.IsFragment originName origin
    (d.selectingDraft origin originName aliases data computed).finished := by
  have hnames : Named.names
      (d.selectingDraft origin originName aliases data computed).finished.attributes =
        (d.fragmentDraft origin originName aliases data computed).attributeNames :=
    EntityDraft.names_attributes _
  refine ⟨rfl, rfl, rfl, rfl, rfl,
    ⟨_, _, _, h.shows, h.isOwnData, h.isComputed, ?_⟩, ?_, ?_, ?_⟩
  · show [] ++ (aliases ++ data ++ backReference origin originName aliases).map
      (DataDraft.attribute false) ++ computed.map ComputedDraft.attribute = _
    rw [h.backReference_eq, List.nil_append, List.map_append, List.map_append, List.map_map]
    rfl
  all_goals
    rw [hnames]
    exact selection_eq _ _ _

/-! ### What cannot be built -/

omit h in
theorem identityViolations_eq_nil :
    (d.selectingDraft origin originName aliases data computed).identityViolations = [] := by
  simp [EntityDraft.identityViolations, selectingDraft, fragmentDraft,
    EntityDraft.effectiveStereotype, Stereotype.isPersistent]

/-- What the draft selects is given, or it is an attribute of the draft. -/
theorem given_of_selects {n : String}
    (hn : (d.selectingDraft origin originName aliases data computed).Selects n)
    (hmissing : n ∉ d.fragmentNames origin) :
    ∃ field ∈ [FieldName.sortField, FieldName.displayField, FieldName.handleField],
      d.text? field = some n := by
  have hgiven : ∀ (field : String) (inherited : Option Attribute),
      selection (d.text? field) inherited
        (d.fragmentDraft origin originName aliases data computed) = some n →
      d.text? field = some n := by
    intro field inherited hs
    rw [selection_eq, h.attributeNames_eq, selects] at hs
    cases ht : d.text? field with
    | some given => simpa [ht] using hs
    | none => simp [ht, Option.filter_eq_some_iff, hmissing] at hs
  rcases hn with hn | hn | hn
  · exact ⟨_, by simp, hgiven _ _ hn⟩
  · exact ⟨_, by simp, hgiven _ _ hn⟩
  · exact ⟨_, by simp, hgiven _ _ hn⟩

omit h in
theorem selects_of_given {n field : String}
    (hfield : field ∈ [FieldName.sortField, FieldName.displayField, FieldName.handleField])
    (hn : d.text? field = some n) :
    (d.selectingDraft origin originName aliases data computed).Selects n := by
  have hselection : ∀ inherited, selection (d.text? field) inherited
      (d.fragmentDraft origin originName aliases data computed) = some n := by
    intro inherited
    rw [hn]
    rfl
  simp only [List.mem_cons, List.not_mem_nil, or_false] at hfield
  rcases hfield with rfl | rfl | rfl
  · exact .inl (hselection _)
  · exact .inr (.inl (hselection _))
  · exact .inr (.inr (hselection _))

/-- The draft of a fragment is in order up to its data space, the names of its attributes and what it
is told to select. -/
theorem fault_of_mem_violations {v : SketchError}
    (hv : v ∈ (d.selectingDraft origin originName aliases data computed).violations) :
    FragmentFault b d originName origin (.sketch v) := by
  have hnames : (d.selectingDraft origin originName aliases data computed).attributeNames =
      d.fragmentNames origin := h.attributeNames_eq
  rw [EntityDraft.violations, EntityDraft.brokenRules, identityViolations_eq_nil,
    List.nil_append, hnames, List.mem_append, List.mem_map, List.mem_map] at hv
  rcases hv with ⟨rule, hrule, rfl⟩ | ⟨n, hn, rfl⟩
  · rcases List.mem_append.1 hrule with hrule | hrule
    · split at hrule
      · cases hrule
      · next hspace =>
        rw [List.mem_singleton.1 hrule]
        exact .dataSpace fun hname => hspace (EntityDraft.isDataSpace_iff _ |>.2 hname)
    · obtain ⟨n, hn, rfl⟩ := List.mem_map.1 hrule
      exact .duplicate ((EntityDraft.mem_repeated_iff.1 hn).resolve_left (by simp))
  · obtain ⟨hselects, hmissing⟩ := EntityDraft.mem_missingSelections.1 hn
    rw [hnames] at hmissing
    obtain ⟨field, hfield, hgiven⟩ := h.given_of_selects hselects hmissing
    exact .selection hfield hgiven hmissing

/-- Nothing is wrong with a fragment that is built. -/
theorem not_fault
    (hv : (d.selectingDraft origin originName aliases data computed).violations = [])
    {e : ModelError} : ¬FragmentFault b d originName origin e := by
  obtain ⟨-, hspace, hnodup, hselects⟩ := EntityDraft.violations_eq_nil_iff.1 hv
  have hnames : (d.selectingDraft origin originName aliases data computed).attributeNames =
      d.fragmentNames origin := h.attributeNames_eq
  rw [hnames] at hnodup hselects
  intro hfault
  cases hfault with
  | unknownAlias listed unknown =>
    obtain ⟨k, hk⟩ := exists_eq_ok_of_mem h.aliases listed
    obtain ⟨shown, _, hshown, -⟩ := toAlias_eq_ok hk
    simp [unknown] at hshown
  | aliasCardinality listed given =>
    obtain ⟨k, hk⟩ := exists_eq_ok_of_mem h.aliases listed
    obtain ⟨_, _, -, hc, -⟩ := toAlias_eq_ok hk
    exact given.cardinalityOr_ne_ok hc
  | child own fault =>
    rcases own with own | own
    · obtain ⟨k, hk⟩ := exists_eq_ok_of_mem h.data own
      exact fault.toDataDraft_ne_ok hk
    · obtain ⟨k, hk⟩ := exists_eq_ok_of_mem h.computed own
      exact fault.toComputedDraft_ne_ok hk
  | persistentComputed listed persistent =>
    obtain ⟨k, hk⟩ := exists_eq_ok_of_mem h.computed listed
    simp [toComputedDraft, persistent] at hk
  | dataSpace malformed => exact malformed ((EntityDraft.isDataSpace_iff _).1 hspace)
  | duplicate twice =>
    exact absurd (List.nodup_iff_count_le_one.1 hnodup _) (Nat.not_le.2 twice)
  | selection field given missing => exact missing (hselects _ (selects_of_given field given))

end Assembled

end Drafts

/-! ## Constructing fragments -/

section Constructing

variable {b : Workbench} {d : Definition} {origin : EntityDefinition} {originName : String}

/-- A fragment that serves its construction fails with a fault. -/
theorem FragmentFault.of_toFragmentDraft {e : ModelError} (hserves : d.ServesAll .fragment)
    (hname : d.requireTarget FieldName.origin = .ok originName)
    (horigin : b.entityDefinition originName = .ok origin)
    (h : d.toFragmentDraft b = .error e) : FragmentFault b d originName origin e := by
  rw [toFragmentDraft_eq hname horigin] at h
  rcases bind_eq_error.1 h with h | ⟨aliases, haliases, h⟩
  · obtain ⟨e', he', rfl⟩ := mapError_eq_error.1 h
    obtain ⟨c, hc, hfail⟩ := exists_of_mapM_eq_error he'
    exact .of_toAlias hc hfail
  rcases bind_eq_error.1 h with h | ⟨data, hdata, h⟩
  · obtain ⟨c, hc, hfail⟩ := exists_of_mapM_eq_error h
    exact .child (.inl hc) (.of_toDataDraft
      (hserves.nested (FieldName.fields, .dataField) (by simp [EntityKind.nested]) c hc) hfail)
  rcases bind_eq_error.1 h with h | ⟨computed, hcomputed, h⟩
  · obtain ⟨c, hc, hfail⟩ := exists_of_mapM_eq_error h
    have hserved :=
      hserves.nested (FieldName.computed, .computedField) (by simp [EntityKind.nested]) c hc
    rcases AttributeFault.of_toComputedDraft hserved hfail with ⟨hp, rfl⟩ | hfault
    · exact .persistentComputed hc hp
    · exact .child (.inr hc) hfault
  obtain ⟨v, hv, rfl⟩ := buildable_eq_error h
  exact Assembled.fault_of_mem_violations ⟨mapError_eq_ok.1 haliases, hdata, hcomputed⟩ hv

/-- **Fragments are constructed exactly.** On whatever workbench, the definition of a fragment that
has been checked fails as the look-up of its origin does. With its origin found, it is constructed
unless one of the faults is there, it fails with one of them, and what is constructed builds the
fragment it describes. -/
theorem fragment_exact (hgrammar : d.OfStandard) (hkind : d.entity = EntityKind.fragment.entity)
    (hcheck : d.check = .ok ()) (b : Workbench) :
    ∃ originName, d.target? FieldName.origin = some originName ∧
      (∀ e, b.entityDefinition originName = .error e → d.toFragmentDraft b = .error e) ∧
      ∀ origin, b.entityDefinition originName = .ok origin →
        ((∃ x, d.toFragmentDraft b = .ok x) ↔
          ∀ e, ¬FragmentFault b d originName origin e) ∧
        (∀ e, d.toFragmentDraft b = .error e → FragmentFault b d originName origin e) ∧
        ∀ x, d.toFragmentDraft b = .ok x →
          ∃ e, x.build = .ok e ∧ d.IsFragment originName origin e := by
  have hserves : d.ServesAll .fragment :=
    servesAll_of_check hgrammar hkind (by rw [hkind]; rfl) hcheck
  obtain ⟨originName, hname⟩ := requireTarget_of_served
    (hserves.own (.neededTarget FieldName.origin) (by simp [EntityKind.accesses]))
  refine ⟨originName, requireTarget_eq_ok.1 hname, ?_, ?_⟩
  · intro e he
    simp only [toFragmentDraft, hname]
    show (b.entityDefinition originName >>= _) = _
    rw [he]
    rfl
  intro origin horigin
  refine ⟨?_, fun e => .of_toFragmentDraft hserves hname horigin, ?_⟩
  · constructor
    · rintro ⟨x, hx⟩ e
      obtain ⟨_, _, _, h, hv, rfl⟩ := (toFragmentDraft_eq_ok_iff hname horigin).1 hx
      exact h.not_fault hv
    · intro hnone
      cases hx : d.toFragmentDraft b with
      | ok x => exact ⟨x, rfl⟩
      | error e => exact absurd (.of_toFragmentDraft hserves hname horigin hx) (hnone e)
  · intro x hx
    obtain ⟨_, _, _, h, hv, rfl⟩ := (toFragmentDraft_eq_ok_iff hname horigin).1 hx
    exact ⟨_, EntityDraft.build_eq_ok.2 ⟨hv, rfl⟩, h.isFragment⟩

end Constructing

/-- A person, identified by a number and shown by a name. -/
def shownPerson : EntityDefinition where
  name := "Person"
  package := none
  stereotype := .entity
  dataSpace := "main"
  attributes :=
    [⟨"perId", "Id", .id, .one, true, "DoId"⟩, ⟨"name", "Name", .data, .one, true, "DoName"⟩]
  sort := none
  display := some "name"
  handle := none
  origin := none

/-- A notebook with persons and the domains of their attributes. -/
def people : Notebook where
  sketches :=
    [.domain ⟨"DoId", none, .primitive .long none [], none, false⟩,
      .domain ⟨"DoName", none, .primitive .string none [], none, false⟩,
      .entityDefinition shownPerson]
  distinct := by decide

/-- A fragment that shows the name of a person under another label and adds a nickname. -/
def personCard : Definition :=
  let name := (empty EntityKind.aliasField.entity "name" none).setProperty FieldName.label
    (.text "Full name")
  let nick := ((empty EntityKind.dataField.entity "nick" none).setProperty FieldName.label
    (.text "Nickname")).addLinks FieldName.domain ["DoName"]
  (((empty EntityKind.fragment.entity "PersonCard" none).addLinks FieldName.origin
    ["Person"]).addChild FieldName.aliases name).addChild FieldName.fields nick

theorem fragment_exact_personCard :
    ∃ x e, personCard.toFragmentDraft (.start people) = .ok x ∧ x.build = .ok e ∧
      personCard.IsFragment "Person" shownPerson e ∧
      Named.names e.attributes = ["name", "nick", "perId"] ∧ e.display = some "name" := by
  have hleaf : ∀ e ∈ personCard.children, ∀ c ∈ e.2,
      c.entity ∈ Grammar.standard.entities ∧ c.children.length = 0 := by
    decide
  have hgrammar : personCard.OfStandard := by
    refine .mk (by decide) fun e he c hc => ?_
    obtain ⟨hentity, hnone⟩ := hleaf e he c hc
    exact .mk hentity (by simp [List.length_eq_zero_iff.1 hnone])
  have hcheck : personCard.check = .ok () := by
    decide +kernel
  have hperson : (Workbench.start people).entityDefinition "Person" = .ok shownPerson := by
    decide +kernel
  have hdraft : (fun x => (x.attributeNames, x.display)) <$>
      personCard.toFragmentDraft (.start people) = .ok (["name", "nick", "perId"], some "name") := by
    decide +kernel
  obtain ⟨x, hx, hparts⟩ := functorMap_eq_ok.1 hdraft
  obtain ⟨hnames, hdisplay⟩ := Prod.mk.inj hparts
  obtain ⟨originName, hname, -, hexact⟩ := fragment_exact hgrammar rfl hcheck (.start people)
  obtain rfl : "Person" = originName := Option.some.inj hname
  obtain ⟨-, -, hbuilt⟩ := hexact shownPerson hperson
  obtain ⟨e, he, hfragment⟩ := hbuilt x hx
  refine ⟨x, e, hx, he, hfragment, ?_, ?_⟩
  · rw [(EntityDraft.build_eq_ok.1 he).2, ← hnames]
    exact EntityDraft.names_attributes x
  · rw [(EntityDraft.build_eq_ok.1 he).2, ← hdisplay]
    rfl

end Definition

end Metamodel
