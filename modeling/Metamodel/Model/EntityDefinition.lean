import Metamodel.Schema.Entity

set_option autoImplicit false

/-! # Entity definitions

An entity definition lists the attributes that objects of one kind have. Its stereotype says whether
such objects are stored; if they are, one attribute identifies them. A fragment shows a part of the
objects of another entity definition, its origin. -/

namespace Metamodel

/-- The stereotypes of entity definitions. -/
inductive Stereotype
  | valueObject
  | entity
  | keyConcept
  | masterData
  | staticMasterData
  | fragment
deriving DecidableEq, Repr

namespace Stereotype

/-- All stereotypes. -/
def all : List Stereotype :=
  [.valueObject, .entity, .keyConcept, .masterData, .staticMasterData, .fragment]

/-- The name of a stereotype. -/
def name : Stereotype → String
  | .valueObject => "ValueObject"
  | .entity => "Entity"
  | .keyConcept => "KeyConcept"
  | .masterData => "MasterData"
  | .staticMasterData => "StaticMasterData"
  | .fragment => "Fragment"

/-- The stereotype of the given name. -/
def ofName? (s : String) : Option Stereotype := all.find? (·.name == s)

/-- Whether objects of this stereotype are stored, and identified by one attribute. -/
def isPersistent : Stereotype → Bool
  | .entity | .keyConcept | .masterData | .staticMasterData => true
  | _ => false

end Stereotype

/-- What an attribute is for. -/
inductive AttributeKind
  /-- It identifies the object. -/
  | id
  | data
  /-- It refers to an object of another entity definition. -/
  | foreignKey (target : String)
  /-- It is computed from other attributes. -/
  | computed (expression : String)
deriving DecidableEq, Repr

/-- The name of a kind of attribute. -/
def AttributeKind.label : AttributeKind → String
  | .id => "Id"
  | .data => "Data"
  | .foreignKey _ => "ForeignKey"
  | .computed _ => "Computed"

/-- An attribute of an entity definition. -/
structure Attribute where
  name : String
  label : String
  kind : AttributeKind
  cardinality : Cardinality
  persistent : Bool
  /-- The name of the domain that its values are from. -/
  domain : String
deriving DecidableEq, Repr

instance : Named Attribute := ⟨Attribute.name⟩

namespace Attribute

/-- Whether the attribute identifies its object. -/
def isId (a : Attribute) : Bool := a.kind = .id

/-- The entity definition a foreign key refers to. -/
def foreignKeyTarget? (a : Attribute) : Option String :=
  match a.kind with
  | .foreignKey target => some target
  | _ => none

/-- The expression of a computed attribute. -/
def expression? (a : Attribute) : Option String :=
  match a.kind with
  | .computed expression => some expression
  | _ => none

end Attribute

/-- An entity definition. Its attributes stand in the order identifier, data and foreign keys,
computed. -/
structure EntityDefinition where
  name : String
  package : Option String
  stereotype : Stereotype
  dataSpace : String
  attributes : List Attribute
  /-- The name of the attribute that orders objects. -/
  sort : Option String
  /-- The name of the attribute that shows an object. -/
  display : Option String
  /-- The name of the attribute that serves as a handle of an object. -/
  handle : Option String
  /-- The entity definition that a fragment shows a part of. -/
  origin : Option String
deriving DecidableEq, Repr

namespace EntityDefinition

/-- Whether objects of the definition are stored. -/
def isPersistent (e : EntityDefinition) : Bool := e.stereotype.isPersistent

/-- The attribute of the given name. -/
def attribute? (e : EntityDefinition) (name : String) : Option Attribute :=
  Named.get? e.attributes name

/-- The attribute that identifies objects. -/
def id? (e : EntityDefinition) : Option Attribute := e.attributes.find? Attribute.isId

/-- The attribute that orders objects. -/
def sortAttribute? (e : EntityDefinition) : Option Attribute := e.sort.bind e.attribute?

/-- The attribute that shows an object. -/
def displayAttribute? (e : EntityDefinition) : Option Attribute := e.display.bind e.attribute?

/-- The attribute that serves as a handle. -/
def handleAttribute? (e : EntityDefinition) : Option Attribute := e.handle.bind e.attribute?

end EntityDefinition

end Metamodel
