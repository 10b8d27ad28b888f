import Metamodel.Repository.InPlace

set_option autoImplicit false

/-! # Loading model text

Loading turns the statements of a text into definitions of a repository. Entities and fields have to
exist in the grammar; a nested block may be headed by the name of a child field or by the entity of
its children. Statements take effect one after the other, each as a whole or not at all, up to the
first one that fails. `Repository.loadInPlace` does this as a program on the repository. -/

namespace Metamodel

/-! ## From statements to definitions -/

/-- The child field a nested block fills, and the entity of its children: the field of the given
name if it holds children, or else the first that holds children of the entity of that name. -/
def Entity.childField? (e : Entity) (head : String) : Option (String × String) :=
  match e.field? head with
  | some ⟨name, .child target, _⟩ => some (name, target)
  | _ => (e.childFieldFor? head).map fun f => (f.name, head)

namespace Repository

variable (r : Repository) (source : String)

/-- The entity that a word names. -/
def entityAt (name : String) (span : Span) : Except SourceError Entity :=
  match r.entity? name with
  | some e => .ok e
  | none => .error (.unknownEntity source name span)

/-- The definition with the field that a word names checked to exist. -/
def withField (d : Definition) (field : Located String) : Except SourceError Unit :=
  if d.entity.hasField field.value then .ok ()
  else .error (.unknownField source d.entity.name field.value field.span)

mutual

/-- The definition with one more entry. -/
def addEntry (d : Definition) : Entry → Except SourceError Definition
  | .property field value => do
    withField source d field
    return d.setProperty field.value value.value
  | .links field targets => do
    withField source d field
    return d.addLinks field.value (targets.map Located.value)
  | .child head name body => do
    let some (field, target) := d.entity.childField? head.value
      | .error (.unknownField source d.entity.name head.value head.span)
    let entity ← r.entityAt source target head.span
    let child ← addEntries (Definition.empty entity name.value d.package) body
    return d.addChild field child

/-- The definition with some more entries, in order. -/
def addEntries (d : Definition) : List Entry → Except SourceError Definition
  | [] => .ok d
  | entry :: rest => do
    let d ← addEntry d entry
    addEntries d rest

end

/-- The definition that a statement describes. -/
def definitionOf (s : Statement) : Except SourceError Definition := do
  let entity ← r.entityAt source s.entity.value s.entity.span
  r.addEntries source (Definition.empty entity s.name.value s.package) s.body

/-! ## From statements to a repository -/

/-- The repository after a statement. -/
def applyStatement (s : Statement) : Except ModelError Repository := do
  let d ← (r.definitionOf source s).mapError .source
  match s.verb with
  | .create => (r.add d).mapError .repository
  | .alter => return r.alter d
  | .declare => return r.declare s.name.value

/-- The repository after the statements up to the first that fails, and the error if one does. -/
def applyAll (r : Repository) : List Statement → Repository × Except ModelError Unit
  | [] => (r, .ok ())
  | s :: rest => match r.applyStatement source s with
    | .ok r => applyAll r rest
    | .error e => (r, .error e)

/-- The repository after loading a text. A text that has no statements changes nothing. -/
def load (text : String) : Repository × Except ModelError Unit :=
  match Statement.parse text with
  | .ok statements => applyAll source r statements
  | .error e => (r, .error (.source (.syntaxError source e)))

/-! ## Loading in place -/

/-- Applies a statement to a repository in place. -/
def applyInPlace (s : Statement) : InPlace ModelError Unit := do
  let d ← .read fun r => (r.definitionOf source s).mapError .source
  match s.verb with
  | .create => (addInPlace d).adapt .repository
  | .alter => alterInPlace d
  | .declare => declareInPlace s.name.value

/-- Applies statements one after the other. -/
def applyAllInPlace : List Statement → InPlace ModelError Unit
  | [] => return
  | s :: rest => do
    applyInPlace source s
    applyAllInPlace rest

/-- Loads a text, which is parsed as a whole first. -/
def loadInPlace (text : String) : InPlace ModelError Unit := do
  match Statement.parse text with
  | .ok statements => applyAllInPlace source statements
  | .error e => throw (.source (.syntaxError source e))

end Repository

end Metamodel
