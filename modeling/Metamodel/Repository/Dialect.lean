import Metamodel.Model.Domain
import Metamodel.Schema.Standard

set_option autoImplicit false

/-! # Dialects

A dialect is a grammar together with the definitions that others imply: whoever adds a definition
adds what it implies, what that implies, and so on. `Dialect.scan` finds them by scanning a list that
grows meanwhile, for ever if need be; `Dialect.closure` lists them for as many generations as follow
from the definition. In the standard dialect an entity definition or fragment `X` implies the domain
`DoX` of its objects, and domains imply nothing. -/

namespace Metamodel

/-- A grammar and the definitions that definitions imply. -/
structure Dialect where
  grammar : Grammar
  implied : Definition → List Definition
  /-- The number of generations of implied definitions that follow from a definition. -/
  generations : Definition → Nat

namespace Dialect

/-- A generation of definitions and the `n` that follow from it. -/
def descendants (d : Dialect) : Nat → List Definition → List Definition
  | 0, generation => generation
  | n + 1, generation => generation ++ d.descendants n (generation.flatMap d.implied)

/-- A definition and all that it implies, generation by generation. -/
def closure (d : Dialect) (x : Definition) : List Definition :=
  d.descendants (d.generations x) [x]

/-- Scans a list from place `n` on, while what each definition implies is put behind all that are
there. `none` stands for a scan that never comes to the end. -/
def scan (implied : Definition → List Definition) (pending : List Definition) (n : Nat) :
    Option (List Definition) :=
  if h : n < pending.length then
    let next := scan implied (n := n + 1)
    next (pending ++ implied pending[n])
  else some pending
partial_fixpoint

/-! ## The standard dialect -/

/-- The domain of the objects of an entity definition or fragment. -/
def implicitDomain (d : Definition) : Definition :=
  ((Definition.empty EntityKind.domain.entity (Domain.implicitName d.key) d.package).addLinks
    FieldName.dataType [objectMarker]).setProperty FieldName.type (.text d.key)

/-- What a definition of the standard grammar implies. -/
def impliedDomains (d : Definition) : List Definition :=
  match EntityKind.ofName? d.entity.name with
  | some .entityDefinition | some .fragment => [implicitDomain d]
  | _ => []

/-- A dialect of any grammar in which entity definitions imply their domains. -/
def ofGrammar (grammar : Grammar) : Dialect := ⟨grammar, impliedDomains, fun _ => 1⟩

/-- The standard dialect. -/
def standard : Dialect := ofGrammar Grammar.standard

/-! ## Dialects by templates -/

/-- The text with `key` in place of every pair of empty braces. -/
def fillBraces (key : List Char) : List Char → List Char
  | '{' :: '}' :: rest => key ++ fillBraces key rest
  | c :: rest => c :: fillBraces key rest
  | [] => []

/-- The template with `key` in place of the empty braces in its own key. -/
def fill (key : String) (template : Definition) : Definition :=
  { template with key := String.ofList (fillBraces key.toList template.key.toList) }

/-- A dialect whose definitions imply the templates listed under their entity, each filled with the
key of the definition. Chains of entities that imply each other without end are cut off once every
listed entity has had its turn. -/
def ofTemplates (grammar : Grammar) (templates : List (String × List Definition)) : Dialect where
  grammar := grammar
  implied d := ((Named.value? templates d.entity.name).getD []).map (fill d.key)
  generations _ := templates.length

end Dialect

end Metamodel
