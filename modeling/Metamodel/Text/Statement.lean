import Metamodel.Text.Span
import Metamodel.Value

set_option autoImplicit false

/-! # Statements

Model text is a sequence of statements. Each creates a definition, alters one or declares that a
name is defined elsewhere; the first two carry a block of entries. A statement knows the words that
stand in it and their places, not their meaning: whether an entity or a field exists is decided when
it is loaded. -/

namespace Metamodel

/-- What a statement does with its definition. -/
inductive Verb
  | create
  | alter
  | declare
deriving DecidableEq, Repr

/-- One entry of a block. -/
inductive Entry
  /-- `field: "text";`, `field: 5;` or `field: true;` -/
  | property (field : Located String) (value : Located Value)
  /-- `field: Name;` or `field: [Name, Name];` -/
  | links (field : Located String) (targets : List (Located String))
  /-- A nested block `head name { … }`. -/
  | child (head name : Located String) (body : List Entry)
deriving Repr

/-- One statement, with the package in effect where it stands. -/
structure Statement where
  verb : Verb
  package : Option String
  entity : Located String
  name : Located String
  body : List Entry
deriving Repr

end Metamodel
