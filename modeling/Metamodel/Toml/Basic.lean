import Metamodel.Named

set_option autoImplicit false

/-! # TOML values

The values of TOML documents. Of numbers, dates and times only their form matters here, so they
carry nothing.

A document defines its tables piece by piece: by headers, by dotted keys, and by the way to either.
How a table came to be (`Origin`) decides who may still add to it, so a table that is defined twice
is noticed. `Toml.alter` follows a path to a table, creating the tables that are missing on the way;
the ways to define something (`Toml.insert`, `Toml.openTable`, `Toml.openElement`) differ in what
they do there. -/

namespace Metamodel

/-- How a table came to be. -/
inductive Origin
  /-- It is written between braces and complete. -/
  | inline
  /-- A header opened it. -/
  | header
  /-- It stands on the way to a header, and may get one itself. -/
  | passed
  /-- It stands in front of a dot in the key of a value. -/
  | dotted
deriving DecidableEq, Repr

/-- A TOML value. -/
inductive Toml
  | string (s : String)
  | boolean (b : Bool)
  /-- An integer or a float. -/
  | number
  /-- A date, a time or both. -/
  | moment
  /-- An array written between brackets. -/
  | array (items : List Toml)
  | table (origin : Origin) (entries : List (String × Toml))
  /-- An array of tables, each opened by a header; the last may still be added to. -/
  | tables (earlier : List (List (String × Toml))) (last : List (String × Toml))
deriving Repr

namespace Toml

/-- The entries of a table, in the order of their definition. -/
abbrev Entries := List (String × Toml)

/-! ## Defining -/

/-- The entries after a change to the table at a path. The change gets the table's origin and
entries, and may refuse. Keys of values (`viaDots`) do not lead through tables with a header. -/
def alter (viaDots : Bool) (change : Origin → Entries → Option Entries) :
    List String → Origin → Entries → Option Entries
  | [], origin, entries => change origin entries
  | key :: path, _, entries =>
    match Named.value? entries key with
    | none =>
      let origin := if viaDots then .dotted else .passed
      (alter viaDots change path origin []).map fun inner => entries ++ [(key, table origin inner)]
    | some (table origin inner) =>
      if origin = .inline ∨ (viaDots ∧ origin = .header) then none
      else (alter viaDots change path origin inner).map fun inner =>
        Named.put (key, table origin inner) entries
    | some (tables earlier last) =>
      (alter viaDots change path .header last).map fun last =>
        Named.put (key, tables earlier last) entries
    | some _ => none

/-- The entries with a value under a dotted key, if nothing is there yet. A key with dots only adds
to tables that such keys created. -/
def insert (path : List String) (key : String) (value : Toml) : Origin → Entries → Option Entries :=
  alter true (fun origin entries =>
    if (path ≠ [] ∧ origin ≠ .dotted) ∨ Named.has entries key then none
    else some (entries ++ [(key, value)])) path

/-- The entries with a table opened by a header, if the table is new or was only passed so far. -/
def openTable (path : List String) (key : String) : Entries → Option Entries :=
  alter false (fun _ entries => match Named.value? entries key with
    | none => some (entries ++ [(key, table .header [])])
    | some (table .passed inner) => some (Named.put (key, table .header inner) entries)
    | some _ => none) path .header

/-- The entries with one more table in an array of tables, if the array is new or was made that
way. -/
def openElement (path : List String) (key : String) : Entries → Option Entries :=
  alter false (fun _ entries => match Named.value? entries key with
    | none => some (entries ++ [(key, tables [] [])])
    | some (tables earlier last) => some (Named.put (key, tables (earlier ++ [last]) []) entries)
    | some _ => none) path .header

/-! ## Reading -/

/-- The text, if the value is one. -/
def string? : Toml → Option String
  | string s => some s
  | _ => none

/-- The truth value, if the value is one. -/
def boolean? : Toml → Option Bool
  | boolean b => some b
  | _ => none

/-- The items of an array. -/
def items? : Toml → Option (List Toml)
  | array items => some items
  | tables earlier last => some ((earlier ++ [last]).map (table .header))
  | _ => none

/-- The values of a record with the given fields: those of a table by name, those of an array by
place. A date or time is a record that has none of them. -/
def record? (fields : List String) : Toml → Option Entries
  | table _ entries => some entries
  | moment => some []
  | value => value.items?.map fields.zip

end Toml

end Metamodel
