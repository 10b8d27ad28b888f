import Metamodel.Notebook.Workbench
import Metamodel.Schema.Standard

set_option autoImplicit false

/-! # Constraints, formatters and domains from their definitions

The data type that a domain links to decides what it ranges over: the markers `DtObject` and
`ValueObject` ask for objects of the type that `TYPE` names, every other one has to be primitive and
may come with a formatter and constraints. -/

namespace Metamodel

namespace Definition

/-! ## Required fields -/

/-- The error that the definition breaks a rule. -/
abbrev broken (d : Definition) (rule : Rule) : SketchError := .broken d.key rule

/-- The text of a property that has to be set. -/
def requireText (d : Definition) (field : String) : Except SketchError String :=
  match d.text? field with
  | some text => .ok text
  | none => .error (d.broken (.required field))

/-- The first target of a link field that has to be filled. -/
def requireTarget (d : Definition) (field : String) : Except SketchError String :=
  match d.target? field with
  | some target => .ok target
  | none => .error (d.broken (.required field))

/-! ## Constraints and formatters -/

/-- The constraint that a definition describes. -/
def toConstraint (d : Definition) : Except SketchError Constraint := do
  let className ← d.requireText FieldName.className
  return {
    name := d.key
    package := d.package
    className := className
    args := d.text? FieldName.args
    msg := d.text? FieldName.msg }

/-- The formatter that a definition describes. -/
def toFormatter (d : Definition) : Except SketchError Formatter := do
  let className ← d.requireText FieldName.className
  return {
    name := d.key
    package := d.package
    className := className
    args := d.text? FieldName.args }

/-! ## Domains -/

/-- The type of a domain of objects. -/
def objectType (d : Definition) (dataType : String) : Except SketchError String :=
  if (d.target? FieldName.formatter).isSome || !(d.targets FieldName.constraint).isEmpty then
    .error (d.broken (.refinedObjectDomain dataType))
  else
    match d.text? FieldName.type with
    | some type => .ok type
    | none => .error (d.broken (.objectDomainWithoutType dataType))

/-- The scope of a domain of a primitive data type. Its formatter and constraints have to be
finished sketches of their kind. -/
def primitiveScope (b : Workbench) (d : Definition) (dataType : String) :
    Except ModelError DomainScope := do
  let some type := DataType.ofName? dataType
    | .error (.broken d.key (.unsupportedDataType dataType))
  if (d.text? FieldName.type).isSome then
    .error (.broken d.key .primitiveDomainWithType)
  let formatter := d.target? FieldName.formatter
  let constraints := d.targets FieldName.constraint
  b.resolveAll .formatter formatter.toList
  b.resolveAll .constraint constraints
  return .primitive type formatter constraints

/-- What the domain that a definition describes ranges over. -/
def domainScope (b : Workbench) (d : Definition) (dataType : String) :
    Except ModelError DomainScope :=
  if dataType = objectMarker then
    ((d.objectType dataType).map .dataObject).mapError .sketch
  else if dataType = valueObjectMarker then
    ((d.objectType dataType).map .valueObject).mapError .sketch
  else d.primitiveScope b dataType

/-- The domain that a definition describes. -/
def toDomain (b : Workbench) (d : Definition) : Except ModelError Domain := do
  let dataType ← d.requireTarget FieldName.dataType
  let scope ← d.domainScope b dataType
  return {
    name := d.key
    package := d.package
    scope := scope
    storeType := d.text? FieldName.storeType
    multiple := (d.flag? FieldName.multiple).getD false }

end Definition

end Metamodel
