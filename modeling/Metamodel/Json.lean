set_option autoImplicit false

/-! # JSON texts

The values of JSON without its numbers, and their texts. A value is written over characters, either
compact, without a blank, or indented by two blanks a level. Both forms come from one function
(`Json.write`) under two layouts; empty arrays and objects are written without a break.

Inside quotes only the quote, the backslash and the control characters below U+0020 are escaped. -/

namespace Metamodel

/-- A JSON value without numbers. The members of an object keep their order. -/
inductive Json
  | null
  | bool (b : Bool)
  | string (s : String)
  | array (items : List Json)
  | object (members : List (String × Json))
deriving Repr

/-- What is written between the parts of a value. -/
structure Layout where
  /-- The break in front of each item, and of the closing bracket, at a depth. -/
  lineBreak : Nat → List Char
  /-- The text between a key and its value. -/
  colon : List Char

/-- The layout without a blank. -/
def Layout.compact : Layout := ⟨fun _ => [], [':']⟩

/-- The layout with an item a line, indented by two blanks a level. -/
def Layout.indented : Layout := ⟨fun depth => '\n' :: List.replicate (2 * depth) ' ', [':', ' ']⟩

namespace Json

/-- How a character is written inside quotes. -/
def escape (c : Char) : List Char :=
  match c with
  | '"' => ['\\', '"']
  | '\\' => ['\\', '\\']
  | '\x08' => ['\\', 'b']
  | '\t' => ['\\', 't']
  | '\n' => ['\\', 'n']
  | '\x0c' => ['\\', 'f']
  | '\r' => ['\\', 'r']
  | c =>
    if c.toNat < 0x20 then
      ['\\', 'u', '0', '0', Nat.digitChar (c.toNat / 16), Nat.digitChar (c.toNat % 16)]
    else [c]

/-- A text between quotes. -/
def quote (s : String) : List Char := '"' :: s.toList.flatMap escape ++ ['"']

variable (layout : Layout)

mutual

/-- The characters of a value that stands at a depth. -/
def write (depth : Nat) : Json → List Char
  | null => "null".toList
  | bool b => (if b then "true" else "false").toList
  | string s => quote s
  | array [] => ['[', ']']
  | array (item :: items) =>
    '[' :: layout.lineBreak (depth + 1) ++ write (depth + 1) item ++
      writeItems (depth + 1) items ++ layout.lineBreak depth ++ [']']
  | object [] => ['{', '}']
  | object ((key, value) :: members) =>
    '{' :: layout.lineBreak (depth + 1) ++ quote key ++ layout.colon ++
      write (depth + 1) value ++ writeMembers (depth + 1) members ++ layout.lineBreak depth ++ ['}']

/-- Further items of an array, each behind a comma. -/
def writeItems (depth : Nat) : List Json → List Char
  | [] => []
  | item :: items =>
    ',' :: layout.lineBreak depth ++ write depth item ++ writeItems depth items

/-- Further members of an object, each behind a comma. -/
def writeMembers (depth : Nat) : List (String × Json) → List Char
  | [] => []
  | (key, value) :: members =>
    ',' :: layout.lineBreak depth ++ quote key ++ layout.colon ++ write depth value ++
      writeMembers depth members

end

/-- The text of a value. -/
def render (j : Json) : String := String.ofList (j.write layout 0)

/-! ## Values for optional and listed things -/

/-- The value of an optional text: null if it is absent. -/
def optional : Option String → Json
  | some s => string s
  | none => null

end Json

end Metamodel
