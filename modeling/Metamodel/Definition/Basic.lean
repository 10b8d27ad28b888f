import Metamodel.Schema.Entity

set_option autoImplicit false

/-! # Definitions

A definition is the unresolved description of one thing of the model: the entity it belongs to, its
key, and the fields it fills. Properties hold values, links name other definitions by key, children
are definitions of their own, owned by their parent. Any field name is accepted here; whether it is
declared is a question of conformance.

Two definitions of the same key are merged by `Definition.merge`: values of the second win, its
links and children come after those of the first. -/

namespace Metamodel

/-- An unresolved definition. Fields stand in the order in which they were first filled. -/
structure Definition where
  entity : Entity
  package : Option String
  key : String
  properties : List (String × Value)
  links : List (String × List String)
  children : List (String × List Definition)

instance : Named Definition := ⟨Definition.key⟩

/-- One link: the key of the definition it stands in, its field and the key it names. -/
structure Link where
  owner : String
  field : String
  target : String
deriving DecidableEq, Repr

namespace Definition

/-- A definition that fills no field. -/
def empty (entity : Entity) (key : String) (package : Option String) : Definition :=
  ⟨entity, package, key, [], [], []⟩

/-! ## Filling fields -/

/-- Sets a property; a later value replaces an earlier one. -/
def setProperty (d : Definition) (field : String) (value : Value) : Definition :=
  { d with properties := Named.put (field, value) d.properties }

/-- Adds links to a field after those it holds. The field counts as filled even by no links. -/
def addLinks (d : Definition) (field : String) (targets : List String) : Definition :=
  { d with links := Named.extend field targets d.links }

/-- Adds a child to a field after those it holds. -/
def addChild (d : Definition) (field : String) (child : Definition) : Definition :=
  { d with children := Named.extend field [child] d.children }

/-- The definition changed by another one of the same key: properties of the other win, its links
and children are added after the present ones. Entity, key and package stay. -/
def merge (d change : Definition) : Definition :=
  { d with
    properties := change.properties.foldl (fun ps p => Named.put p ps) d.properties
    links := change.links.foldl (fun ls l => Named.extend l.1 l.2 ls) d.links
    children := change.children.foldl (fun cs c => Named.extend c.1 c.2 cs) d.children }

/-! ## Reading fields -/

/-- The value of a property. -/
def property? (d : Definition) (field : String) : Option Value := Named.value? d.properties field

/-- The text of a property, if it is set to a text. -/
def text? (d : Definition) (field : String) : Option String := (d.property? field).bind Value.text?

/-- The flag of a property, if it is set to a flag. -/
def flag? (d : Definition) (field : String) : Option Bool := (d.property? field).bind Value.flag?

/-- The keys a link field names. -/
def targets (d : Definition) (field : String) : List String :=
  (Named.value? d.links field).getD []

/-- The first key a link field names. -/
def target? (d : Definition) (field : String) : Option String := (d.targets field).head?

/-- The children in a field. -/
def childrenOf (d : Definition) (field : String) : List Definition :=
  (Named.value? d.children field).getD []

/-- Whether a field, whatever its role, holds at least one value. -/
def isFilled (d : Definition) (field : String) : Bool :=
  Named.has d.properties field || !(d.targets field).isEmpty || !(d.childrenOf field).isEmpty

/-! ## Recursion over nested children -/

theorem sizeOf_child {d c : Definition} {e : String × List Definition} (he : e ∈ d.children)
    (hc : c ∈ e.2) : sizeOf c < sizeOf d := by
  have h₁ := List.sizeOf_lt_of_mem hc
  have h₂ := List.sizeOf_lt_of_mem he
  cases d
  cases e
  simp only [mk.sizeOf_spec, Prod.mk.sizeOf_spec] at *
  omega

/-- The links of a definition itself, field by field. -/
def ownLinks (d : Definition) : List Link :=
  d.links.flatMap fun l => l.2.map fun target => ⟨d.key, l.1, target⟩

/-- Every link of a definition: its own, then those of its children, depth first. -/
def allLinks (d : Definition) : List Link :=
  d.ownLinks ++ d.children.flatMap fun e => e.2.flatMap fun c => c.allLinks
termination_by sizeOf d
decreasing_by exact sizeOf_child ‹_› ‹_›

/-- Whether two definitions are equal up to the order of their fields. The values of one field have
to agree in order. -/
def same (a b : Definition) : Bool :=
  a.entity.same b.entity && a.package == b.package && a.key == b.key &&
    Named.sameBy (· == ·) a.properties b.properties &&
    Named.sameBy (· == ·) a.links b.links &&
    a.children.length == b.children.length &&
    a.children.attach.all fun e => match Named.value? b.children e.1.1 with
      | some ds => e.1.2.length == ds.length && (e.1.2.attach.zip ds).all fun p => p.1.1.same p.2
      | none => false
termination_by sizeOf a
decreasing_by exact sizeOf_child e.2 p.1.2

end Definition

end Metamodel
