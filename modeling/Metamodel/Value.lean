set_option autoImplicit false

/-! # Literal values

A property of a definition holds a literal: a text, a flag or a 64-bit signed integer. -/

namespace Metamodel

/-- The types of literal values. -/
inductive ValueType
  | text
  | flag
  | integer
deriving DecidableEq, Repr

/-- The name of a type as it stands in messages and grammars. -/
def ValueType.label : ValueType → String
  | .text => "String"
  | .flag => "Boolean"
  | .integer => "Integer"

/-- A literal value. -/
inductive Value
  | text (s : String)
  | flag (b : Bool)
  | integer (n : Int64)
deriving DecidableEq, Repr

namespace Value

/-- The type of a value. -/
def type : Value → ValueType
  | .text _ => .text
  | .flag _ => .flag
  | .integer _ => .integer

/-- The text, if the value is one. -/
def text? : Value → Option String
  | .text s => some s
  | _ => none

/-- The flag, if the value is one. -/
def flag? : Value → Option Bool
  | .flag b => some b
  | _ => none

/-- The integer, if the value is one. -/
def integer? : Value → Option Int64
  | .integer n => some n
  | _ => none

/-- The value as messages show it: texts between quotes as they are, integers in decimal. -/
def display : Value → String
  | .text s => "\"" ++ s ++ "\""
  | .flag true => "true"
  | .flag false => "false"
  | .integer n => toString n.toInt

end Value

end Metamodel
