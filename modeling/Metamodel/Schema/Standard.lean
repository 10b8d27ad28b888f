import Metamodel.Schema.Grammar

set_option autoImplicit false

/-! # The standard grammar

The entities of the standard metamodel: data types, constraints, formatters, domains, entity
definitions with their fields, fragments and associations. Its roots are the primitive data types
and two markers, `DtObject` and `ValueObject`, which say that a domain ranges over objects. -/

namespace Metamodel

/-! ## Names of fields -/

namespace FieldName

def className : String := "className"
def args : String := "args"
def msg : String := "msg"
def dataType : String := "dataType"
def formatter : String := "formatter"
def constraint : String := "constraint"
def type : String := "TYPE"
def storeType : String := "storeType"
def multiple : String := "multiple"
def label : String := "label"
def cardinality : String := "cardinality"
def persistent : String := "persistent"
def expression : String := "expression"
def domain : String := "domain"
def stereotype : String := "stereotype"
def dataSpace : String := "dataSpace"
def sortField : String := "sortField"
def displayField : String := "displayField"
def handleField : String := "handleField"
def ids : String := "id"
def fields : String := "field"
def computed : String := "computed"
def aliases : String := "alias"
def origin : String := "from"
def definitionA : String := "dtDefinitionA"
def definitionB : String := "dtDefinitionB"
def associationType : String := "type"
def multiplicityA : String := "multiplicityA"
def multiplicityB : String := "multiplicityB"
def navigabilityA : String := "navigabilityA"
def navigabilityB : String := "navigabilityB"
def roleA : String := "roleA"
def roleB : String := "roleB"
def labelA : String := "labelA"
def labelB : String := "labelB"
def foreignKeyName : String := "fkFieldName"
def tableName : String := "tableName"

end FieldName

/-! ## Kinds of entities -/

/-- The entities of the standard grammar. -/
inductive EntityKind
  | dataType
  | constraint
  | formatter
  | domain
  | idField
  | dataField
  | computedField
  | aliasField
  | entityDefinition
  | fragment
  | association
  | manyToMany
deriving DecidableEq, Repr

namespace EntityKind

/-- All kinds, in the order of the grammar. -/
def all : List EntityKind :=
  [.dataType, .constraint, .formatter, .domain, .idField, .dataField, .computedField, .aliasField,
    .entityDefinition, .fragment, .association, .manyToMany]

/-- The name of the entity. -/
def name : EntityKind → String
  | .dataType => "DataType"
  | .constraint => "Constraint"
  | .formatter => "Formatter"
  | .domain => "Domain"
  | .idField => "IdField"
  | .dataField => "DataField"
  | .computedField => "ComputedField"
  | .aliasField => "AliasField"
  | .entityDefinition => "DtDefinition"
  | .fragment => "Fragment"
  | .association => "Association"
  | .manyToMany => "AssociationNN"

/-- The kind whose entity has the given name. -/
def ofName? (name : String) : Option EntityKind := all.find? (·.name == name)

/-- Whether definitions of this kind only stand inside another definition. -/
def isNestedOnly : EntityKind → Bool
  | .idField | .dataField | .computedField | .aliasField => true
  | _ => false

/-- The fields of the entity. -/
def fields : EntityKind → List Field
  | .dataType => []
  | .constraint =>
    [text FieldName.className .one, text FieldName.args .optional, text FieldName.msg .optional]
  | .formatter => [text FieldName.className .one, text FieldName.args .optional]
  | .domain =>
    [link FieldName.dataType .dataType .one,
      link FieldName.formatter .formatter .optional,
      link FieldName.constraint .constraint .many,
      text FieldName.type .optional,
      text FieldName.storeType .optional,
      flag FieldName.multiple]
  | .idField => [text FieldName.label .one, link FieldName.domain .domain .one]
  | .dataField =>
    [text FieldName.label .one, text FieldName.cardinality .optional, flag FieldName.persistent,
      link FieldName.domain .domain .one]
  | .computedField =>
    [text FieldName.label .one, text FieldName.cardinality .optional,
      text FieldName.expression .one, flag FieldName.persistent,
      link FieldName.domain .domain .one]
  | .aliasField => [text FieldName.label .optional, text FieldName.cardinality .optional]
  | .entityDefinition =>
    text FieldName.stereotype .optional :: selections ++
      [children FieldName.ids .idField, children FieldName.fields .dataField,
        children FieldName.computed .computedField]
  | .fragment =>
    link FieldName.origin .entityDefinition .one :: selections ++
      [children FieldName.aliases .aliasField, children FieldName.fields .dataField,
        children FieldName.computed .computedField]
  | .association =>
    ends ++
      [text FieldName.associationType .optional,
        text FieldName.multiplicityA .optional, text FieldName.multiplicityB .optional] ++
      endDetails ++ [text FieldName.foreignKeyName .optional]
  | .manyToMany => ends ++ [text FieldName.tableName .one] ++ endDetails
where
  text (name : String) (cardinality : Cardinality) : Field :=
    ⟨name, .property .text, cardinality⟩
  flag (name : String) : Field := ⟨name, .property .flag, .optional⟩
  link (name : String) (target : EntityKind) (cardinality : Cardinality) : Field :=
    ⟨name, .link target.name, cardinality⟩
  children (name : String) (target : EntityKind) : Field := ⟨name, .child target.name, .many⟩
  selections : List Field :=
    [text FieldName.dataSpace .optional, text FieldName.sortField .optional,
      text FieldName.displayField .optional, text FieldName.handleField .optional]
  ends : List Field :=
    [link FieldName.definitionA .entityDefinition .one,
      link FieldName.definitionB .entityDefinition .one]
  endDetails : List Field :=
    [flag FieldName.navigabilityA, flag FieldName.navigabilityB,
      text FieldName.roleA .optional, text FieldName.roleB .optional,
      text FieldName.labelA .optional, text FieldName.labelB .optional]

/-- The entity itself. Data types are provided from outside. -/
def entity (k : EntityKind) : Entity := ⟨k.name, k.fields, k = .dataType⟩

end EntityKind

/-! ## Roots -/

/-- The data type that marks a domain of objects of an entity definition. -/
def objectMarker : String := "DtObject"

/-- The data type that marks a domain of value objects. -/
def valueObjectMarker : String := "ValueObject"

/-- The names of the primitive data types. -/
def primitiveNames : List String :=
  ["String", "Integer", "Long", "Double", "BigDecimal", "Boolean", "LocalDate", "Instant",
    "DataStream"]

/-- The standard grammar. -/
def Grammar.standard : Grammar where
  entities := EntityKind.all.map EntityKind.entity
  roots := (primitiveNames ++ [objectMarker, valueObjectMarker]).map fun key =>
    Definition.empty EntityKind.dataType.entity key none

end Metamodel
