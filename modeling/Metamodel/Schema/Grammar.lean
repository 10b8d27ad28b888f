import Metamodel.Definition.Basic

set_option autoImplicit false

/-! # Grammars

A grammar is a set of entities together with the root definitions that every repository starts
with: things that are supplied from outside, such as the primitive data types. -/

namespace Metamodel

/-- The entities definitions may belong to, and the definitions that are there from the start. -/
structure Grammar where
  entities : List Entity
  roots : List Definition

namespace Grammar

/-- A grammar without entities. -/
def empty : Grammar := ⟨[], []⟩

/-- The grammar with one more entity, which replaces an entity of the same name. -/
def addEntity (g : Grammar) (e : Entity) : Grammar := { g with entities := Named.put e g.entities }

/-- The grammar with one more root definition. -/
def addRoot (g : Grammar) (d : Definition) : Grammar := { g with roots := g.roots ++ [d] }

/-- The entity of the given name. -/
def entity? (g : Grammar) (name : String) : Option Entity := Named.get? g.entities name

end Grammar

end Metamodel
