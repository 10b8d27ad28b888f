import Metamodel.Proofs.Conformance
import Metamodel.Proofs.Lookup
import Metamodel.Schema.Standard

set_option autoImplicit false

/-! # What constructions read in definitions

Constructions read the fields of a definition by name and expect values of certain types; the grammar
declares the fields of its entities, with types and cardinalities. `EntityKind.accesses` lists what
the construction of each kind reads, `EntityKind.nested` the children it looks into, and each entry is
compared with the declaration (`declared_of_mem_accesses`, `shape_of_mem_nested`). A definition that
has been checked therefore serves every access: what is needed is there, and nothing is of another
type than the one that is read (`Conforms.served`). -/

namespace Metamodel

/-! ## Accesses -/

/-- One way in which a construction reads a field of a definition. -/
inductive Access
  /-- A text that may be absent. -/
  | text (field : String)
  /-- A flag that may be absent. -/
  | flag (field : String)
  /-- A text that has to be there. -/
  | neededText (field : String)
  /-- A target that has to be there. -/
  | neededTarget (field : String)
deriving DecidableEq, Repr

namespace Access

/-- What is read is there if it is needed, and is never passed over for being of another type. -/
def Served (d : Definition) : Access → Prop
  | text field => ∀ v, d.property? field = some v → v.type = .text
  | flag field => ∀ v, d.property? field = some v → v.type = .flag
  | neededText field => ∃ s, d.property? field = some (.text s)
  | neededTarget field => ∃ target, d.target? field = some target

/-- The access gives the same for both definitions. -/
def Alike (d d' : Definition) : Access → Prop
  | text field | neededText field => d.text? field = d'.text? field
  | flag field => d.flag? field = d'.flag? field
  | neededTarget field => d.target? field = d'.target? field

/-- An entity declares what is read. -/
def DeclaredIn (e : Entity) : Access → Prop
  | text field => (e.field? field).map Field.shape = some (.property .text)
  | flag field => (e.field? field).map Field.shape = some (.property .flag)
  | neededText field =>
    (e.field? field).map Field.shape = some (.property .text) ∧ field ∈ e.requiredFields
  | neededTarget field =>
    (e.field? field).map (·.shape.role) = some .link ∧ field ∈ e.requiredFields

instance (e : Entity) (a : Access) : Decidable (a.DeclaredIn e) :=
  match a with
  | text _ | flag _ => inferInstanceAs (Decidable (_ = _))
  | neededText _ | neededTarget _ => inferInstanceAs (Decidable (_ ∧ _))

end Access

namespace EntityKind

/-- What the construction of a definition of this kind reads in the definition itself. -/
def accesses : EntityKind → List Access
  | .dataType => []
  | .constraint =>
    [.neededText FieldName.className, .text FieldName.args, .text FieldName.msg]
  | .formatter => [.neededText FieldName.className, .text FieldName.args]
  | .domain =>
    [.neededTarget FieldName.dataType, .text FieldName.type, .text FieldName.storeType,
      .flag FieldName.multiple]
  | .idField => [.neededTarget FieldName.domain, .neededText FieldName.label]
  | .dataField =>
    [.neededTarget FieldName.domain, .neededText FieldName.label, .text FieldName.cardinality,
      .flag FieldName.persistent]
  | .computedField =>
    [.flag FieldName.persistent, .neededTarget FieldName.domain, .neededText FieldName.label,
      .text FieldName.cardinality, .neededText FieldName.expression]
  | .aliasField => [.text FieldName.cardinality, .text FieldName.label]
  | .entityDefinition => .text FieldName.stereotype :: selections
  | .fragment => .neededTarget FieldName.origin :: selections
  | .association =>
    ends ++
      [.text FieldName.associationType, .text FieldName.multiplicityA,
        .text FieldName.multiplicityB] ++
      endDetails ++ [.text FieldName.foreignKeyName]
  | .manyToMany => ends ++ [.neededText FieldName.tableName] ++ endDetails
where
  selections : List Access :=
    [.text FieldName.dataSpace, .text FieldName.sortField, .text FieldName.displayField,
      .text FieldName.handleField]
  ends : List Access :=
    [.neededTarget FieldName.definitionA, .neededTarget FieldName.definitionB]
  endDetails : List Access :=
    [.flag FieldName.navigabilityA, .flag FieldName.navigabilityB, .text FieldName.roleA,
      .text FieldName.roleB, .text FieldName.labelA, .text FieldName.labelB]

/-- The children that the construction of a definition of this kind looks into, by field and kind. -/
def nested : EntityKind → List (String × EntityKind)
  | .entityDefinition =>
    [(FieldName.ids, .idField), (FieldName.fields, .dataField),
      (FieldName.computed, .computedField)]
  | .fragment =>
    [(FieldName.aliases, .aliasField), (FieldName.fields, .dataField),
      (FieldName.computed, .computedField)]
  | _ => []

/-- The grammar declares all that is read. -/
theorem declared_of_mem_accesses (k : EntityKind) : ∀ a ∈ k.accesses, a.DeclaredIn k.entity := by
  cases k <;> decide

/-- The grammar declares the children that are looked into. -/
theorem shape_of_mem_nested (k : EntityKind) : ∀ n ∈ k.nested,
    (k.entity.field? n.1).map Field.shape = some (.child n.2.name) := by
  cases k <;> decide

/-- Nested definitions are not provided from outside. -/
theorem isProvided_of_mem_nested (k : EntityKind) : ∀ n ∈ k.nested,
    n.2.entity.isProvided = false := by
  cases k <;> decide

theorem ofName?_name (k : EntityKind) : ofName? k.name = some k := by
  cases k <;> decide

end EntityKind

/-- The definition and all that are nested in it are of entities of the standard grammar. -/
inductive Definition.OfStandard : Definition → Prop
  | mk {d : Definition} (entity : d.entity ∈ Grammar.standard.entities)
    (children : ∀ e ∈ d.children, ∀ c ∈ e.2, c.OfStandard) : OfStandard d

theorem Definition.OfStandard.entity_mem {d : Definition} (h : d.OfStandard) :
    d.entity ∈ Grammar.standard.entities := by
  cases h
  assumption

theorem entity_eq_of_mem_standard {e : Entity} {k : EntityKind}
    (h : e ∈ Grammar.standard.entities) (hk : EntityKind.ofName? e.name = some k) :
    e = k.entity := by
  obtain ⟨k', -, rfl⟩ := List.mem_map.1 h
  have hname : EntityKind.ofName? k'.entity.name = some k' := k'.ofName?_name
  cases hname.symm.trans hk
  rfl

namespace Definition

/-! ## Reading properties -/

section Reading

variable {d : Definition} {field : String}

theorem text?_eq_some_iff {text : String} :
    d.text? field = some text ↔ d.property? field = some (.text text) := by
  rw [text?, Option.bind_eq_some_iff]
  constructor
  · rintro ⟨v, hv, ht⟩
    cases v <;> simp_all [Value.text?]
  · intro h
    exact ⟨_, h, rfl⟩

theorem flag?_eq_some_iff {flag : Bool} :
    d.flag? field = some flag ↔ d.property? field = some (.flag flag) := by
  rw [flag?, Option.bind_eq_some_iff]
  constructor
  · rintro ⟨v, hv, hf⟩
    cases v <;> simp_all [Value.flag?]
  · intro h
    exact ⟨_, h, rfl⟩

/-- Where nothing but a text can be set, no text means that nothing is set. -/
theorem text?_eq_none_iff (h : (Access.text field).Served d) :
    d.text? field = none ↔ d.property? field = none := by
  cases hv : d.property? field with
  | none => simp [text?, hv]
  | some v =>
    have htype := h v hv
    cases v <;> simp_all [text?, Value.text?, Value.type]

end Reading

/-! ## What conforms serves -/

/-- What a definition that has been checked says field by field. -/
structure Conforms (d : Definition) : Prop where
  property : ∀ p ∈ d.properties,
    (d.entity.field? p.1).map Field.shape = some (.property p.2.type)
  link : ∀ l ∈ d.links, (d.entity.field? l.1).map (·.shape.role) = some .link
  child : ∀ e ∈ d.children, ∃ target,
    (d.entity.field? e.1).map Field.shape = some (.child target) ∧
      ∀ c ∈ e.2, c.entity.name = target ∧ c.check = .ok ()
  required : ∀ field ∈ d.entity.requiredFields, d.isFilled field = true

theorem conforms_of_check {d : Definition} (hp : d.entity.isProvided = false)
    (h : d.check = .ok ()) : d.Conforms := by
  have hown := fillsAsDeclared_of_faults_eq_nil hp (check_eq_ok.1 h)
  cases faults_eq_nil_iff.1 (check_eq_ok.1 h) with
  | provided hprovided => simp [hp] at hprovided
  | checked _ complete nested =>
    constructor
    · intro p hm
      obtain ⟨f, hf, hshape⟩ := hown.property p hm
      simp [hf, hshape]
    · intro l hm
      obtain ⟨f, target, hf, hshape, -⟩ := hown.link l hm
      simp [hf, hshape, Shape.role]
    · intro e hm
      obtain ⟨f, target, hf, hshape, -, hentity⟩ := hown.child e hm
      refine ⟨target, by simp [hf, hshape], ?_⟩
      intro c hc
      exact ⟨hentity c hc, check_eq_ok.2 (faults_eq_nil_iff.2 (nested e hm c hc))⟩
    · intro field hfield
      obtain ⟨f, hf, rfl⟩ := List.mem_map.1 hfield
      obtain ⟨hmem, hrequired⟩ := List.mem_filter.1 hf
      exact (isFilled_iff hown f.name).2 (complete f hmem (of_decide_eq_true hrequired))

section Conforms

variable {d : Definition} (h : d.Conforms)
include h

theorem Conforms.shape_of_property? {field : String} {v : Value} (hv : d.property? field = some v) :
    (d.entity.field? field).map Field.shape = some (.property v.type) :=
  h.property _ (Named.mem_of_value? hv)

theorem Conforms.role_of_targets {field : String} (ht : d.targets field ≠ []) :
    (d.entity.field? field).map (·.shape.role) = some .link := by
  cases hl : Named.value? d.links field with
  | none => simp [targets, hl] at ht
  | some keys => exact h.link _ (Named.mem_of_value? hl)

theorem Conforms.role_of_childrenOf {field : String} (hc : d.childrenOf field ≠ []) :
    (d.entity.field? field).map (·.shape.role) = some .child := by
  cases hl : Named.value? d.children field with
  | none => simp [childrenOf, hl] at hc
  | some cs =>
    obtain ⟨target, hshape, -⟩ := h.child _ (Named.mem_of_value? hl)
    obtain ⟨f, hf, hshape⟩ := Option.map_eq_some_iff.1 hshape
    simp [hf, hshape, Shape.role]

/-- A required field is filled in the role it is declared with. -/
theorem Conforms.filled {field : String} (hfield : field ∈ d.entity.requiredFields) :
    (∃ v, d.property? field = some v) ∨ d.targets field ≠ [] ∨ d.childrenOf field ≠ [] := by
  have hfilled := h.required field hfield
  simp only [isFilled, Bool.or_eq_true, Bool.not_eq_true', List.isEmpty_eq_false_iff] at hfilled
  rcases hfilled with (hp | ht) | hc
  · rw [← Named.get?_isSome, Option.isSome_iff_exists] at hp
    obtain ⟨p, hp⟩ := hp
    exact .inl ⟨p.2, by simp [property?, Named.value?, hp]⟩
  · exact .inr (.inl ht)
  · exact .inr (.inr hc)

/-- What an entity declares to be read, its definitions serve if they conform. -/
theorem Conforms.served {a : Access} (ha : a.DeclaredIn d.entity) : a.Served d := by
  cases a with
  | text field =>
    intro v hv
    simpa using (h.shape_of_property? hv).symm.trans ha
  | flag field =>
    intro v hv
    simpa using (h.shape_of_property? hv).symm.trans ha
  | neededText field =>
    obtain ⟨hshape, hrequired⟩ := ha
    obtain ⟨f, hf, hshape⟩ := Option.map_eq_some_iff.1 hshape
    obtain ⟨v, hv⟩ | ht | hc := h.filled hrequired
    · have htype := h.shape_of_property? hv
      cases v with
      | text s => exact ⟨s, hv⟩
      | flag => simp [hf, hshape, Value.type] at htype
      | integer => simp [hf, hshape, Value.type] at htype
    · have hrole := h.role_of_targets ht
      simp [hf, hshape, Shape.role] at hrole
    · have hrole := h.role_of_childrenOf hc
      simp [hf, hshape, Shape.role] at hrole
  | neededTarget field =>
    obtain ⟨hrole, hrequired⟩ := ha
    obtain ⟨f, hf, hlink⟩ := Option.map_eq_some_iff.1 hrole
    obtain ⟨v, hv⟩ | ht | hc := h.filled hrequired
    · obtain ⟨f', hf', hshape⟩ := Option.map_eq_some_iff.1 (h.shape_of_property? hv)
      cases hf.symm.trans hf'
      simp [hshape, Shape.role] at hlink
    · exact ⟨_, List.head?_eq_some_head ht⟩
    · exact absurd (hrole.symm.trans (h.role_of_childrenOf hc)) (by simp)

end Conforms

/-- The definition serves what the construction of a kind reads in it and in its children. -/
structure ServesAll (k : EntityKind) (d : Definition) : Prop where
  own : ∀ a ∈ k.accesses, a.Served d
  nested : ∀ n ∈ k.nested, ∀ c ∈ d.childrenOf n.1, ∀ a ∈ n.2.accesses, a.Served c

theorem mem_children_of_mem_childrenOf {d c : Definition} {field : String}
    (hc : c ∈ d.childrenOf field) : ∃ cs, (field, cs) ∈ d.children ∧ c ∈ cs := by
  rw [childrenOf] at hc
  cases hcs : Named.value? d.children field with
  | none => simp [hcs] at hc
  | some cs => exact ⟨cs, Named.mem_of_value? hcs, by simpa [hcs] using hc⟩

/-- The children that a construction looks into are of the kind it takes them for, and have been
checked as well. -/
theorem Conforms.entity_of_nested {d c : Definition} {k : EntityKind} (h : d.Conforms)
    (hgrammar : d.OfStandard) (hk : d.entity = k.entity) {n : String × EntityKind}
    (hn : n ∈ k.nested) (hc : c ∈ d.childrenOf n.1) :
    c.entity = n.2.entity ∧ c.check = .ok () := by
  obtain ⟨cs, hcs, hc⟩ := mem_children_of_mem_childrenOf hc
  obtain ⟨target, hshape, hchild⟩ := h.child _ hcs
  obtain ⟨hname, hcheck⟩ := hchild c hc
  rw [hk, k.shape_of_mem_nested n hn, Option.some.injEq, Shape.child.injEq] at hshape
  obtain ⟨-, hnested⟩ := hgrammar
  obtain ⟨hentity, -⟩ := hnested _ hcs c hc
  refine ⟨entity_eq_of_mem_standard hentity ?_, hcheck⟩
  rw [hname, ← hshape, EntityKind.ofName?_name]

/-- A definition that has been checked serves its construction. -/
theorem servesAll_of_check {d : Definition} {k : EntityKind} (hgrammar : d.OfStandard)
    (hk : d.entity = k.entity) (hp : d.entity.isProvided = false) (hcheck : d.check = .ok ()) :
    d.ServesAll k := by
  have hconforms := conforms_of_check hp hcheck
  refine ⟨fun a ha => hconforms.served (hk ▸ k.declared_of_mem_accesses a ha), ?_⟩
  intro n hn c hc
  obtain ⟨hentity, hchecked⟩ := hconforms.entity_of_nested hgrammar hk hn hc
  have hc' : c.Conforms :=
    conforms_of_check (hentity ▸ k.isProvided_of_mem_nested n hn) hchecked
  exact fun a ha => hc'.served (hentity ▸ n.2.declared_of_mem_accesses a ha)

end Definition

end Metamodel
