import Metamodel.Model.Sketch

set_option autoImplicit false

/-! # Notebooks

A notebook holds finished sketches under their names, in the order in which they were built. Names
are distinct, so a name leads to one sketch; looking up a name together with a kind says whether it
is absent or of another kind. -/

namespace Metamodel

/-- Why a name does not lead to the sketch that is looked for. -/
inductive NotebookError
  | notFound (name : String)
  | wrongKind (name : String) (expected actual : SketchKind)
  /-- The domain `name` does not range over the objects of an entity definition. -/
  | noObjectDomain (name : String)
  /-- The entity definition `name` is still a draft. -/
  | stillOpen (name : String)
  | duplicate (name : String)
deriving DecidableEq, Repr

namespace NotebookError

/-- The message for an error. -/
def message : NotebookError → String
  | .notFound name => "sketch not found: \"" ++ name ++ "\""
  | .wrongKind name expected actual => mismatch name expected.name actual.name
  | .noObjectDomain name => mismatch name "DataObject domain" "domain of another scope"
  | .stillOpen name => "entity definition \"" ++ name ++ "\" is still open in this build"
  | .duplicate name => "sketch \"" ++ name ++ "\" already exists in the notebook"
where
  mismatch (name expected actual : String) : String :=
    "sketch \"" ++ name ++ "\" is a " ++ actual ++ ", expected a " ++ expected

/-- The identifier of the kind of error. -/
def code : NotebookError → String
  | .notFound .. => "modelbook::notebook::not_found"
  | .wrongKind .. | .noObjectDomain .. => "modelbook::notebook::wrong_kind"
  | .stillOpen .. => "modelbook::notebook::still_open"
  | .duplicate .. => "modelbook::notebook::duplicate"

/-- Advice on an error. -/
def help : NotebookError → String
  | .notFound .. => "No sketch with this name exists in the notebook."
  | .wrongKind .. | .noObjectDomain .. => "A link points at a definition of the wrong kind."
  | .stillOpen .. =>
    "Entity definitions are frozen last. Use Workbench::entity_definition for a snapshot."
  | .duplicate .. => "A definition with this name is already provided by the prior notebook."

end NotebookError

/-- Finished sketches under distinct names, in the order in which they were built. -/
structure Notebook where
  sketches : List Sketch
  distinct : (Named.names sketches).Nodup
deriving DecidableEq

namespace Notebook

/-- The notebook without sketches. -/
def empty : Notebook := ⟨[], List.nodup_nil⟩

/-- The names of the sketches, in order. -/
def names (n : Notebook) : List String := Named.names n.sketches

/-- The number of sketches. -/
def size (n : Notebook) : Nat := n.sketches.length

/-- Whether a sketch of the given name exists. -/
def contains (n : Notebook) (name : String) : Bool := Named.has n.sketches name

/-- The sketch of the given name. -/
def get? (n : Notebook) (name : String) : Option Sketch := Named.get? n.sketches name

/-- The sketches of one kind, in order. -/
def ofKind (n : Notebook) (kind : SketchKind) : List Sketch :=
  n.sketches.filter (·.kind = kind)

/-- Whether two notebooks hold the same sketches, whatever their order. -/
def same (n m : Notebook) : Bool :=
  n.size == m.size && n.sketches.all fun s => m.get? s.name == some s

/-! ## Typed look-up -/

/-- The sketch, if it is of the given kind. -/
def expectKind (s : Sketch) (kind : SketchKind) : Except NotebookError Sketch :=
  if s.kind = kind then .ok s else .error (.wrongKind s.name kind s.kind)

/-- The sketch of the given name and kind. -/
def resolve (n : Notebook) (name : String) (kind : SketchKind) : Except NotebookError Sketch :=
  match n.get? name with
  | some s => expectKind s kind
  | none => .error (.notFound name)

/-- What `pick` finds in the sketch of the given name. -/
def find {α : Type} (n : Notebook) (name : String) (kind : SketchKind)
    (pick : Sketch → Option α) : Except NotebookError α :=
  match n.get? name with
  | some s => match pick s with
    | some a => .ok a
    | none => .error (.wrongKind s.name kind s.kind)
  | none => .error (.notFound name)

/-- The constraint of the given name. -/
def constraint (n : Notebook) (name : String) : Except NotebookError Constraint :=
  n.find name .constraint Sketch.constraint?

/-- The formatter of the given name. -/
def formatter (n : Notebook) (name : String) : Except NotebookError Formatter :=
  n.find name .formatter Sketch.formatter?

/-- The domain of the given name. -/
def domain (n : Notebook) (name : String) : Except NotebookError Domain :=
  n.find name .domain Sketch.domain?

/-- The entity definition of the given name. -/
def entityDefinition (n : Notebook) (name : String) : Except NotebookError EntityDefinition :=
  n.find name .entityDefinition Sketch.entityDefinition?

/-- The association of the given name. -/
def association (n : Notebook) (name : String) : Except NotebookError Association :=
  n.find name .association Sketch.association?

end Notebook

namespace Domain

/-! ## What a domain refers to -/

/-- The formatter of a primitive domain, looked up in a notebook. -/
def formatterIn (d : Domain) (n : Notebook) : Except NotebookError (Option Formatter) :=
  match d.formatterName? with
  | some name => (n.formatter name).map some
  | none => .ok none

/-- The constraints of a primitive domain, looked up in a notebook. -/
def constraintsIn (d : Domain) (n : Notebook) : Except NotebookError (List Constraint) :=
  d.constraintNames.mapM n.constraint

/-- The entity definition of a domain of objects, looked up in a notebook. -/
def definitionIn (d : Domain) (n : Notebook) : Except NotebookError EntityDefinition :=
  match d.definitionName? with
  | some name => n.entityDefinition name
  | none => .error (.noObjectDomain d.name)

end Domain

end Metamodel
