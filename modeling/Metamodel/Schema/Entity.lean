import Metamodel.Named
import Metamodel.Value

set_option autoImplicit false

/-! # Entities: the legal shapes of definitions

An entity says, for one kind of definition, which fields a definition of that kind may fill: a
property holds a literal value, a link names definitions of a target entity, and a child owns nested
definitions of a target entity. Nothing is checked here; `Metamodel.Definition.Conformance` compares
definitions with their entity. -/

namespace Metamodel

/-- The three roles a field can play. -/
inductive Role
  | property
  | link
  | child
deriving DecidableEq, Repr

/-- The word for a role in messages. -/
def Role.label : Role → String
  | .property => "property"
  | .link => "link"
  | .child => "child"

/-- What a field holds. -/
inductive Shape
  /-- A literal value of the given type. -/
  | property (type : ValueType)
  /-- Names of definitions of the target entity. -/
  | link (target : String)
  /-- Nested definitions of the target entity. -/
  | child (target : String)
deriving DecidableEq, Repr

/-- The role a shape plays. -/
def Shape.role : Shape → Role
  | .property _ => .property
  | .link _ => .link
  | .child _ => .child

/-- How many values a field takes. -/
inductive Cardinality
  /-- Exactly one value. -/
  | one
  /-- At most one value. -/
  | optional
  /-- Any number of values. -/
  | many
deriving DecidableEq, Repr

namespace Cardinality

/-- The name of a cardinality in a grammar. -/
def label : Cardinality → String
  | .one => "One"
  | .optional => "Optional"
  | .many => "Many"

/-- The sign of a cardinality in models. -/
def sign : Cardinality → String
  | .one => "1"
  | .optional => "?"
  | .many => "*"

/-- The cardinality a sign stands for. -/
def ofSign? (s : String) : Option Cardinality := [one, optional, many].find? (·.sign == s)

/-- Whether a field of this cardinality has to be filled. -/
def isRequired (c : Cardinality) : Bool := c = .one

/-- Whether a field of this cardinality may hold several values. -/
def isMultiple (c : Cardinality) : Bool := c = .many

end Cardinality

/-- One legal field of an entity. -/
structure Field where
  name : String
  shape : Shape
  cardinality : Cardinality
deriving DecidableEq, Repr

instance : Named Field := ⟨Field.name⟩

/-- The declared shape of one kind of definition. Definitions of a provided entity are supplied from
outside: they are neither checked nor turned into sketches. -/
structure Entity where
  name : String
  fields : List Field
  isProvided : Bool
deriving DecidableEq, Repr

instance : Named Entity := ⟨Entity.name⟩

namespace Entity

/-- An entity with the given fields; of fields with one name the last counts, at the place of the
first. -/
def ofFields (name : String) (fields : List Field) (isProvided : Bool) : Entity :=
  ⟨name, fields.foldl (fun fs f => Named.put f fs) [], isProvided⟩

/-- The field of the given name. -/
def field? (e : Entity) (name : String) : Option Field := Named.get? e.fields name

/-- Whether the entity declares a field of the given name. -/
def hasField (e : Entity) (name : String) : Bool := Named.has e.fields name

/-- The names of the fields that have to be filled, in declaration order. -/
def requiredFields (e : Entity) : List String :=
  (e.fields.filter (·.cardinality.isRequired)).map Field.name

/-- The first child field that holds definitions of the given entity. -/
def childFieldFor? (e : Entity) (target : String) : Option Field :=
  e.fields.find? (·.shape = .child target)

/-- Whether two entities are equal up to the order of their fields. -/
def same (a b : Entity) : Bool :=
  a.name == b.name && a.isProvided == b.isProvided && a.fields.length == b.fields.length &&
    a.fields.all fun f => b.field? f.name == some f

end Entity

end Metamodel
