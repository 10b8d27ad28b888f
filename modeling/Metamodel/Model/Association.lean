set_option autoImplicit false

/-! # Associations

An association relates the objects of two entity definitions. If one end is single-valued, the
objects of the other end refer to it by a foreign key; if both ends are many-valued, a join table
relates them. -/

namespace Metamodel

/-- How many objects stand at one end of an association. -/
inductive Multiplicity
  | zeroOrOne
  | one
  | zeroOrMany
  | oneOrMany
deriving DecidableEq, Repr

namespace Multiplicity

/-- All multiplicities. -/
def all : List Multiplicity := [.zeroOrOne, .one, .zeroOrMany, .oneOrMany]

/-- The sign of a multiplicity in models. -/
def sign : Multiplicity → String
  | .zeroOrOne => "0..1"
  | .one => "1..1"
  | .zeroOrMany => "0..*"
  | .oneOrMany => "1..*"

/-- The multiplicity a sign stands for. -/
def ofSign? (s : String) : Option Multiplicity := all.find? (·.sign == s)

theorem ofSign?_eq_some_iff {s : String} {m : Multiplicity} : ofSign? s = some m ↔ m.sign = s := by
  constructor
  · intro h
    simpa using List.find?_some h
  · rintro rfl
    cases m <;> rfl

/-- The name of a multiplicity. -/
def label : Multiplicity → String
  | .zeroOrOne => "ZeroOrOne"
  | .one => "One"
  | .zeroOrMany => "ZeroOrMany"
  | .oneOrMany => "OneOrMany"

/-- Whether several objects may stand at the end. -/
def isMany : Multiplicity → Bool
  | .zeroOrMany | .oneOrMany => true
  | _ => false

/-- Whether at least one object has to stand at the end. -/
def isNotNull : Multiplicity → Bool
  | .one | .oneOrMany => true
  | _ => false

end Multiplicity

/-- One end of an association. -/
structure AssociationEnd where
  /-- The name of the entity definition at this end. -/
  definition : String
  navigable : Bool
  role : String
  label : String
  multiplicity : Multiplicity
deriving DecidableEq, Repr

/-- One of the two ends. -/
inductive Side
  | a
  | b
deriving DecidableEq, Repr

namespace Side

/-- The name of a side. -/
def label : Side → String
  | .a => "A"
  | .b => "B"

/-- The side of the given name. -/
def ofLabel? (s : String) : Option Side := [Side.a, Side.b].find? (·.label == s)

/-- The opposite side. -/
def other : Side → Side
  | .a => .b
  | .b => .a

/-- What stands on a side. -/
def pick {α : Type} (a b : α) : Side → α
  | .a => a
  | .b => b

end Side

/-- How an association is stored. -/
inductive Realisation
  /-- The end opposite to `primary` holds a foreign key under the given name; `primary` is the
  single-valued end. -/
  | foreignKey (primary : Side) (name : String)
  /-- A table of the given name relates both ends. -/
  | joinTable (name : String)
deriving DecidableEq, Repr

/-- An association between two entity definitions. -/
structure Association where
  name : String
  package : Option String
  endA : AssociationEnd
  endB : AssociationEnd
  realisation : Realisation
deriving DecidableEq, Repr

namespace Association

/-- The end on a side. -/
def endAt (a : Association) : Side → AssociationEnd := Side.pick a.endA a.endB

/-- The name of the join table. -/
def joinTable? (a : Association) : Option String :=
  match a.realisation with
  | .joinTable name => some name
  | .foreignKey .. => none

/-- The side of the single-valued end and the name of the foreign key. -/
def foreignKey? (a : Association) : Option (Side × String) :=
  match a.realisation with
  | .foreignKey primary name => some (primary, name)
  | .joinTable _ => none

end Association

end Metamodel
