import Metamodel.Named

set_option autoImplicit false

/-! # Domains, constraints and formatters

A domain is the set of values a field ranges over. It wraps a primitive data type, which a formatter
and constraints may refine, or ranges over value objects of a class, or over objects of an entity
definition. Formatters, constraints and entity definitions are named here, not held. -/

namespace Metamodel

/-- The primitive data types. -/
inductive DataType
  | string
  | integer
  | long
  | double
  | bigDecimal
  | boolean
  | localDate
  | instant
  | dataStream
deriving DecidableEq, Repr

namespace DataType

/-- All data types. -/
def all : List DataType :=
  [.string, .integer, .long, .double, .bigDecimal, .boolean, .localDate, .instant, .dataStream]

/-- The name of a data type. -/
def name : DataType → String
  | .string => "String"
  | .integer => "Integer"
  | .long => "Long"
  | .double => "Double"
  | .bigDecimal => "BigDecimal"
  | .boolean => "Boolean"
  | .localDate => "LocalDate"
  | .instant => "Instant"
  | .dataStream => "DataStream"

/-- The data type of the given name. -/
def ofName? (s : String) : Option DataType := all.find? (·.name == s)

@[simp] theorem ofName?_name (t : DataType) : ofName? t.name = some t := by
  cases t <;> rfl

theorem ofName?_eq_some_iff {s : String} {t : DataType} : ofName? s = some t ↔ t.name = s := by
  constructor
  · intro h
    simpa using List.find?_some h
  · rintro rfl
    exact ofName?_name t

/-- Whether values of this type are numbers. -/
def isNumeric : DataType → Bool
  | .integer | .long | .double | .bigDecimal => true
  | _ => false

end DataType

/-- A rule that the values of a primitive domain obey. -/
structure Constraint where
  name : String
  package : Option String
  className : String
  args : Option String
  /-- What to report when a value breaks the rule. -/
  msg : Option String
deriving DecidableEq, Repr

/-- How the values of a primitive domain are shown. -/
structure Formatter where
  name : String
  package : Option String
  className : String
  args : Option String
deriving DecidableEq, Repr

/-- What the values of a domain are. -/
inductive DomainScope
  | primitive (dataType : DataType) (formatter : Option String) (constraints : List String)
  | valueObject (className : String)
  | dataObject (entityDefinition : String)
deriving DecidableEq, Repr

/-- A domain. -/
structure Domain where
  name : String
  package : Option String
  scope : DomainScope
  storeType : Option String
  multiple : Bool
deriving DecidableEq, Repr

namespace Domain

/-- Whether the domain wraps a primitive data type. -/
def isPrimitive (d : Domain) : Bool :=
  match d.scope with
  | .primitive .. => true
  | _ => false

/-- The data type of a primitive domain. -/
def dataType? (d : Domain) : Option DataType :=
  match d.scope with
  | .primitive t _ _ => some t
  | _ => none

/-- The class of a domain of value objects. -/
def className? (d : Domain) : Option String :=
  match d.scope with
  | .valueObject c => some c
  | _ => none

/-- The entity definition of a domain of objects. -/
def definitionName? (d : Domain) : Option String :=
  match d.scope with
  | .dataObject e => some e
  | _ => none

/-- The formatter of a primitive domain. -/
def formatterName? (d : Domain) : Option String :=
  match d.scope with
  | .primitive _ f _ => f
  | _ => none

/-- The constraints of a primitive domain, in declaration order. -/
def constraintNames (d : Domain) : List String :=
  match d.scope with
  | .primitive _ _ cs => cs
  | _ => []

/-- The name of the domain that ranges over the objects of an entity definition. -/
def implicitName (entityDefinition : String) : String := "Do" ++ entityDefinition

end Domain

end Metamodel
