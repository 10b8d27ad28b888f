import Metamodel.Notebook.Document
import Metamodel.Proofs.JsonReading

set_option autoImplicit false

/-! # Reading documents of notebooks

`Notebook.ofDocument?` reads a notebook back from its document. Objects are read by their members, each
looked up by its key (`Json.member?`), and what an object is follows from its tags: the kind of a
sketch, the scope of a domain, the type of an attribute, the realisation of an association. A document
whose keys are not the names of their sketches, or in which a name stands twice, is refused.

Reading undoes writing for each part of a sketch, and so for the notebook (`document_exact`). -/

namespace Metamodel

namespace Json

/-! ## Reading values -/

/-- The text that a value is. -/
def asText? : Json → Option String
  | .string s => some s
  | _ => none

/-- The flag that a value is. -/
def asFlag? : Json → Option Bool
  | .bool b => some b
  | _ => none

/-- The optional text that a value is: null for none. -/
def asOptional? : Json → Option (Option String)
  | .null => some none
  | .string s => some (some s)
  | _ => none

/-- The members of the object that a value is. -/
def asObject? : Json → Option (List (String × Json))
  | .object members => some members
  | _ => none

section

variable {α : Type} (read : Json → Option α)

/-- The list that a value is, read item by item. -/
def asList? : Json → Option (List α)
  | .array items => items.mapM read
  | _ => none

/-- What is read under a key. -/
def member? (key : String) (members : List (String × Json)) : Option α :=
  (Named.value? members key).bind read

variable {read} {key key' : String} {j : Json} {members : List (String × Json)}

@[simp] theorem member?_cons_self : member? read key ((key, j) :: members) = read j := by
  simp [member?, Named.value?, Named.get?, Named.nameOf]

@[simp] theorem member?_cons_of_ne (h : key' ≠ key) :
    member? read key ((key', j) :: members) = member? read key members := by
  simp [member?, Named.value?, Named.get?, Named.nameOf, h]

/-- What is written entry by entry is read entry by entry. -/
theorem mapM_map {α β : Type} {read : β → Option α} {write : α → β}
    (h : ∀ a, read (write a) = some a) (xs : List α) : (xs.map write).mapM read = some xs := by
  induction xs with
  | nil => rfl
  | cons x xs ih => simp [h, ih]

theorem asList?_map {write : α → Json} (h : ∀ a, read (write a) = some a) (xs : List α) :
    asList? read (.array (xs.map write)) = some xs :=
  mapM_map h xs

end

@[simp] theorem asText?_string (s : String) : asText? (.string s) = some s := rfl

@[simp] theorem asFlag?_bool (b : Bool) : asFlag? (.bool b) = some b := rfl

@[simp] theorem asOptional?_optional (s : Option String) : asOptional? (optional s) = some s := by
  cases s <;> rfl

@[simp] theorem asObject?_object (members : List (String × Json)) :
    asObject? (.object members) = some members :=
  rfl

@[simp] theorem asTexts?_strings (texts : List String) :
    asList? asText? (.array (texts.map .string)) = some texts :=
  asList?_map asText?_string texts

end Json

open Json

/-! ## Names -/

/-- The cardinality of the given name. -/
def Cardinality.ofLabel? (s : String) : Option Cardinality :=
  [one, optional, many].find? (·.label == s)

/-- The multiplicity of the given name. -/
def Multiplicity.ofLabel? (s : String) : Option Multiplicity := all.find? (·.label == s)

@[simp] theorem Cardinality.ofLabel?_label (c : Cardinality) : ofLabel? c.label = some c := by
  cases c <;> rfl

@[simp] theorem Multiplicity.ofLabel?_label (m : Multiplicity) : ofLabel? m.label = some m := by
  cases m <;> rfl

@[simp] theorem Stereotype.ofName?_name (s : Stereotype) : ofName? s.name = some s := by
  cases s <;> rfl

@[simp] theorem Side.ofLabel?_label (s : Side) : ofLabel? s.label = some s := by
  cases s <;> rfl

/-! ## Parts of sketches -/

/-- The scope that an object says. -/
def DomainScope.ofJson? (j : Json) : Option DomainScope := do
  let members ← asObject? j
  match ← member? asText? "scope" members with
  | "Primitive" =>
    let type ← DataType.ofName? (← member? asText? "data_type" members)
    let formatter ← member? asOptional? "formatter" members
    let constraints ← member? (asList? asText?) "constraints" members
    return .primitive type formatter constraints
  | "ValueObject" => return .valueObject (← member? asText? "class_name" members)
  | "DataObject" => return .dataObject (← member? asText? "entity_definition" members)
  | _ => none

@[simp] theorem DomainScope.ofJson?_toJson (s : DomainScope) : ofJson? s.toJson = some s := by
  cases s <;> simp [ofJson?, toJson]

/-- The kind of attribute that an object says. -/
def AttributeKind.ofJson? (j : Json) : Option AttributeKind := do
  let members ← asObject? j
  match ← member? asText? "type" members with
  | "Id" => return .id
  | "Data" => return .data
  | "ForeignKey" => return .foreignKey (← member? asText? "target" members)
  | "Computed" => return .computed (← member? asText? "expression" members)
  | _ => none

@[simp] theorem AttributeKind.ofJson?_toJson (k : AttributeKind) : ofJson? k.toJson = some k := by
  cases k <;> simp [ofJson?, toJson, label]

/-- The attribute that an object says. -/
def Attribute.ofJson? (j : Json) : Option Attribute := do
  let members ← asObject? j
  return {
    name := ← member? asText? "name" members
    label := ← member? asText? "label" members
    kind := ← member? AttributeKind.ofJson? "kind" members
    cardinality := ← Cardinality.ofLabel? (← member? asText? "cardinality" members)
    persistent := ← member? asFlag? "persistent" members
    domain := ← member? asText? "domain" members }

@[simp] theorem Attribute.ofJson?_toJson (a : Attribute) : ofJson? a.toJson = some a := by
  simp [ofJson?, toJson]

/-- The end of an association that an object says. -/
def AssociationEnd.ofJson? (j : Json) : Option AssociationEnd := do
  let members ← asObject? j
  return {
    definition := ← member? asText? "entity_definition" members
    navigable := ← member? asFlag? "navigable" members
    role := ← member? asText? "role" members
    label := ← member? asText? "label" members
    multiplicity := ← Multiplicity.ofLabel? (← member? asText? "multiplicity" members) }

@[simp] theorem AssociationEnd.ofJson?_toJson (e : AssociationEnd) :
    ofJson? e.toJson = some e := by
  simp [ofJson?, toJson]

/-! ## Sketches -/

/-- The constraint that the members of an object say. -/
def Constraint.ofMembers? (members : List (String × Json)) : Option Constraint := do
  return {
    name := ← member? asText? "name" members
    package := ← member? asOptional? "package" members
    className := ← member? asText? "class_name" members
    args := ← member? asOptional? "args" members
    msg := ← member? asOptional? "msg" members }

/-- The formatter that the members of an object say. -/
def Formatter.ofMembers? (members : List (String × Json)) : Option Formatter := do
  return {
    name := ← member? asText? "name" members
    package := ← member? asOptional? "package" members
    className := ← member? asText? "class_name" members
    args := ← member? asOptional? "args" members }

/-- The domain that the members of an object say. -/
def Domain.ofMembers? (members : List (String × Json)) : Option Domain := do
  return {
    name := ← member? asText? "name" members
    package := ← member? asOptional? "package" members
    scope := ← member? DomainScope.ofJson? "scope" members
    storeType := ← member? asOptional? "store_type" members
    multiple := ← member? asFlag? "multiple" members }

/-- The entity definition that the members of an object say. -/
def EntityDefinition.ofMembers? (members : List (String × Json)) : Option EntityDefinition := do
  return {
    name := ← member? asText? "name" members
    package := ← member? asOptional? "package" members
    stereotype := ← Stereotype.ofName? (← member? asText? "stereotype" members)
    dataSpace := ← member? asText? "data_space" members
    attributes := ← member? (asList? Attribute.ofJson?) "fields" members
    sort := ← member? asOptional? "sort_field" members
    display := ← member? asOptional? "display_field" members
    handle := ← member? asOptional? "handle_field" members
    origin := ← member? asOptional? "fragment_of" members }

/-- The realisation that the members of an association say. -/
def Realisation.ofMembers? (members : List (String × Json)) : Option Realisation := do
  match ← member? asText? "association" members with
  | "Simple" =>
    let primary ← Side.ofLabel? (← member? asText? "primary" members)
    return .foreignKey primary (← member? asText? "fk_field_name" members)
  | "ManyToMany" => return .joinTable (← member? asText? "table_name" members)
  | _ => none

/-- The association that the members of an object say. -/
def Association.ofMembers? (members : List (String × Json)) : Option Association := do
  return {
    name := ← member? asText? "name" members
    package := ← member? asOptional? "package" members
    endA := ← member? AssociationEnd.ofJson? "node_a" members
    endB := ← member? AssociationEnd.ofJson? "node_b" members
    realisation := ← Realisation.ofMembers? members }

/-- The sketch that an object says. -/
def Sketch.ofJson? (j : Json) : Option Sketch := do
  let members ← asObject? j
  match ← member? asText? "kind" members with
  | "Constraint" => return .constraint (← Constraint.ofMembers? members)
  | "Formatter" => return .formatter (← Formatter.ofMembers? members)
  | "Domain" => return .domain (← Domain.ofMembers? members)
  | "EntityDefinition" => return .entityDefinition (← EntityDefinition.ofMembers? members)
  | "Association" => return .association (← Association.ofMembers? members)
  | _ => none

section Members

variable {kind : Json}

@[simp] theorem Constraint.ofMembers?_members (c : Constraint) :
    ofMembers? (("kind", kind) :: c.members) = some c := by
  simp [ofMembers?, members]

@[simp] theorem Formatter.ofMembers?_members (f : Formatter) :
    ofMembers? (("kind", kind) :: f.members) = some f := by
  simp [ofMembers?, members]

@[simp] theorem Domain.ofMembers?_members (d : Domain) :
    ofMembers? (("kind", kind) :: d.members) = some d := by
  simp [ofMembers?, members]

@[simp] theorem EntityDefinition.ofMembers?_members (e : EntityDefinition) :
    ofMembers? (("kind", kind) :: e.members) = some e := by
  simp [ofMembers?, members, asList?_map Attribute.ofJson?_toJson]

@[simp] theorem Association.ofMembers?_members (a : Association) :
    ofMembers? (("kind", kind) :: a.members) = some a := by
  rcases a with ⟨name, package, endA, endB, _ | _⟩ <;>
    simp [ofMembers?, Realisation.ofMembers?, members]

end Members

theorem Sketch.ofJson?_toJson (s : Sketch) : ofJson? s.toJson = some s := by
  cases s <;> simp [ofJson?, toJson, members, Sketch.kind, SketchKind.name]

/-! ## Notebooks -/

/-- The sketch that an object says, if it stands under its name. -/
def Sketch.ofMember? (e : String × Json) : Option Sketch := do
  let s ← ofJson? e.2
  if s.name = e.1 then some s else none

theorem Sketch.ofMember?_toJson (s : Sketch) : ofMember? (s.name, s.toJson) = some s := by
  simp [ofMember?, ofJson?_toJson]

namespace Notebook

/-- The notebook of some sketches, if no name stands twice. -/
def ofSketches? (sketches : List Sketch) : Option Notebook :=
  if h : (Named.names sketches).Nodup then some ⟨sketches, h⟩ else none

/-- The notebook that an object says. -/
def ofJson? (j : Json) : Option Notebook := do
  let entries ← member? asObject? "sketches" (← asObject? j)
  ofSketches? (← entries.mapM Sketch.ofMember?)

/-- The notebook that a document says. -/
def ofDocument? (text : String) : Option Notebook := (Json.ofText? text).bind ofJson?

theorem ofJson?_toJson (n : Notebook) : ofJson? n.toJson = some n := by
  simp [ofJson?, toJson, mapM_map Sketch.ofMember?_toJson, ofSketches?, n.distinct]

theorem ofDocument?_document (n : Notebook) (pretty : Bool) :
    ofDocument? (n.document pretty) = some n := by
  have hblanks : OnlyBlanks (if pretty then .indented else .compact) := by
    cases pretty
    · exact onlyBlanks_compact
    · exact onlyBlanks_indented
  rw [ofDocument?, document, ofText?_render hblanks, Option.bind_some, ofJson?_toJson]

/-- **Documents lose nothing.** A notebook is read back from its document, indented or compact, with
all that its sketches say and in their order. So notebooks with one document are the same, and the
compact document is the indented one without the blanks outside of quotes. -/
theorem document_exact :
    (∀ (n : Notebook) (pretty : Bool), ofDocument? (n.document pretty) = some n) ∧
      (∀ pretty : Bool, Function.Injective fun n : Notebook => n.document pretty) ∧
      ∀ n : Notebook, String.ofList (strip (n.document true).toList) = n.document false := by
  refine ⟨ofDocument?_document, ?_, ?_⟩
  · intro pretty n m h
    have hn := ofDocument?_document n pretty
    rw [show n.document pretty = m.document pretty from h, ofDocument?_document m pretty] at hn
    exact (Option.some.inj hn).symm
  · intro n
    show String.ofList (strip (n.toJson.render .indented).toList) = n.toJson.render .compact
    rw [strip_render onlyBlanks_indented, String.ofList_toList]

end Notebook

end Metamodel
