import Metamodel.Toml.Number

set_option autoImplicit false

/-! # Reading TOML documents

A document is a sequence of lines, though values between brackets may go over several. Each line
opens a table by a header, adds a table to an array of tables, or puts a value into the table opened
last; before the first header that is the document itself.

Which form a value has is decided by its first character. Arrays and inline tables nest at most
`Toml.depthLimit` deep, which is what ends the recursion. -/

namespace Metamodel

namespace Toml

/-! ## Values -/

/-- The items of an array behind its opening bracket or a comma. Behind the last item a comma may
stand. -/
def arrayItems (item : List Char → Read Toml) (cs : List Char) : Read (List Toml) :=
  match skipGap false cs with
  | ']' :: rest => some ([], rest)
  | front =>
    match item front with
    | none => none
    | some (value, rest) =>
      match skipGap false rest with
      | ']' :: rest => some ([value], rest)
      | ',' :: rest =>
        if rest.length < cs.length then
          (arrayItems item rest).map fun r => (value :: r.1, r.2)
        else none
      | _ => none
termination_by cs.length

/-- A key, the equals sign and a value. -/
def pair? (item : List Char → Read Toml) (cs : List Char) :
    Option (((List String × String) × Toml) × List Char) := do
  let (key, cs) ← key? cs
  let (value, rest) ← item (skipBlanks (← mark? '=' cs))
  return ((key, value), rest)

/-- An inline table behind its opening brace. -/
def inlineTable (item : List Char → Read Toml) (cs : List Char) : Option (Toml × List Char) :=
  match skipBlanks cs with
  | '}' :: rest => some (table .inline [], rest)
  | front => do
    let (pairs, cs) ← sequence? ',' (pair? item) front
    let rest ← mark? '}' cs
    let entries ← pairs.foldlM
      (fun entries ((path, key), value) => insert path key value .header entries) []
    return (table .inline entries, rest)

/-- A word that stands for a truth value. -/
def word? (word : List Char) (value : Toml) (cs : List Char) : Read Toml :=
  if word.isPrefixOf cs then some (value, cs.drop word.length) else none

/-- A value in which others nest at most `depth` deep. -/
def value? (depth : Nat) (cs : List Char) : Read Toml :=
  match cs with
  | '"' :: _ | '\'' :: _ => (text? cs).map fun r => (string r.1, r.2)
  | '[' :: cs =>
    match depth with
    | 0 => none
    | depth + 1 => (arrayItems (value? depth) cs).map fun r => (array r.1, r.2)
  | '{' :: cs =>
    match depth with
    | 0 => none
    | depth + 1 => inlineTable (value? depth) cs
  | 't' :: _ => word? "true".toList (boolean true) cs
  | 'f' :: _ => word? "false".toList (boolean false) cs
  | _ => scalar? cs

/-! ## Lines -/

/-- What has been read of a document: its entries, and the path to the table opened last. -/
structure Document where
  entries : Entries
  path : List String

namespace Document

/-- The document behind a header. -/
def opened (d : Document) (open? : List String → String → Entries → Option Entries)
    (key : List String × String) : Option Document :=
  (open? key.1 key.2 d.entries).map fun entries => ⟨entries, key.1 ++ [key.2]⟩

/-- The document with a value in the table opened last. -/
def add (d : Document) (pair : (List String × String) × Toml) : Option Document :=
  (alter false (insert pair.1.1 pair.1.2 pair.2) d.path .header d.entries).map fun entries =>
    { d with entries }

/-- The document behind one line, and the lines that follow. -/
def line? (d : Document) (cs : List Char) : Option (Document × List Char) :=
  match cs with
  | '[' :: '[' :: cs => do
    let (key, cs) ← key? cs
    let rest ← lineEnd? (← mark? ']' (← mark? ']' cs))
    return (← d.opened openElement key, rest)
  | '[' :: cs => do
    let (key, cs) ← key? cs
    let rest ← lineEnd? (← mark? ']' cs)
    return (← d.opened openTable key, rest)
  | '#' :: _ | '\n' :: _ | '\r' :: _ => (lineEnd? cs).map (d, ·)
  | cs => do
    let (pair, cs) ← pair? (Toml.value? depthLimit) cs
    let rest ← lineEnd? cs
    return (← d.add pair, rest)

/-- The document behind all lines. -/
def lines? (d : Document) (cs : List Char) : Option Document :=
  match skipBlanks cs with
  | [] => some d
  | front =>
    match d.line? front with
    | none => none
    | some (d, rest) => if rest.length < cs.length then d.lines? rest else none
termination_by cs.length

end Document

/-- The entries of a document. A byte order mark at its front is left out. -/
def read? (text : String) : Option Entries :=
  let lines := match text.toList with
    | '\ufeff' :: cs => cs
    | cs => cs
  (Document.lines? ⟨[], []⟩ lines).map Document.entries

end Toml

end Metamodel
