import Metamodel.Model.Association
import Metamodel.Model.Domain
import Metamodel.Model.EntityDefinition

set_option autoImplicit false

/-! # Sketches

A sketch is a finished thing of the model: a constraint, a formatter, a domain, an entity definition
or an association. Sketches refer to each other by name. -/

namespace Metamodel

/-- The kinds of sketches. -/
inductive SketchKind
  | constraint
  | formatter
  | domain
  | entityDefinition
  | association
deriving DecidableEq, Repr

namespace SketchKind

/-- All kinds, in the order of summaries. -/
def all : List SketchKind := [.constraint, .formatter, .domain, .entityDefinition, .association]

/-- The name of a kind. -/
def name : SketchKind → String
  | .constraint => "Constraint"
  | .formatter => "Formatter"
  | .domain => "Domain"
  | .entityDefinition => "EntityDefinition"
  | .association => "Association"

/-- The words a kind answers to, in small letters. -/
def words : SketchKind → List String
  | .constraint => ["constraint"]
  | .formatter => ["formatter"]
  | .domain => ["domain"]
  | .entityDefinition => ["entity", "entitydefinition", "dt"]
  | .association => ["association"]

/-- The kind a word asks for; the case of ASCII letters does not matter. -/
def ofWord? (word : String) : Option SketchKind :=
  let small := String.ofList (word.toList.map Char.toLower)
  all.find? (·.words.contains small)

end SketchKind

/-- A finished thing of the model. -/
inductive Sketch
  | constraint (c : Constraint)
  | formatter (f : Formatter)
  | domain (d : Domain)
  | entityDefinition (e : EntityDefinition)
  | association (a : Association)
deriving DecidableEq, Repr

namespace Sketch

/-- The name of a sketch. -/
def name : Sketch → String
  | .constraint c => c.name
  | .formatter f => f.name
  | .domain d => d.name
  | .entityDefinition e => e.name
  | .association a => a.name

/-- The kind of a sketch. -/
def kind : Sketch → SketchKind
  | .constraint _ => .constraint
  | .formatter _ => .formatter
  | .domain _ => .domain
  | .entityDefinition _ => .entityDefinition
  | .association _ => .association

/-- The constraint, if the sketch is one. -/
def constraint? : Sketch → Option Constraint
  | .constraint c => some c
  | _ => none

/-- The formatter, if the sketch is one. -/
def formatter? : Sketch → Option Formatter
  | .formatter f => some f
  | _ => none

/-- The domain, if the sketch is one. -/
def domain? : Sketch → Option Domain
  | .domain d => some d
  | _ => none

/-- The entity definition, if the sketch is one. -/
def entityDefinition? : Sketch → Option EntityDefinition
  | .entityDefinition e => some e
  | _ => none

/-- The association, if the sketch is one. -/
def association? : Sketch → Option Association
  | .association a => some a
  | _ => none

end Sketch

instance : Named Sketch := ⟨Sketch.name⟩

end Metamodel
