import Metamodel.Construction
import Metamodel.InPlace

set_option autoImplicit false

/-! # Constructing in place

Constructions as programs that work on a workbench in place. Most of them only read it. A simple
association is the one definition whose construction writes: the foreign key is added to the draft at
its many-valued end, behind all that may fail. -/

namespace Metamodel

namespace Workbench

/-- A construction that works on a workbench in place. If it fails, the workbench is left as the
construction has made it until then. -/
abbrev InPlace (α : Type) := Metamodel.InPlace Id Workbench ModelError α

namespace InPlace

/-- Changes the draft of the given name. -/
def change (name : String) (c : DraftChange) : InPlace Unit := modify fun b => b.change name c

/-- Gives one slot that is made from what is read, and leaves the workbench alone. -/
def only (f : Workbench → Except ModelError Slot) : InPlace (List Slot) :=
  .read fun b => (f b).map fun s => [s]

end InPlace

/-- Finished simple association, whose foreign key is added to the draft at its many-valued end. -/
def makeSimpleInPlace (d : Definition) : InPlace Slot := do
  let (endA, endB, side) ← .read fun _ => d.simpleEnds.mapError .sketch
  let primary := side.pick endA endB
  let foreign := side.other.pick endA endB
  let primaryDefinition ← .read (·.entityDefinition primary.definition)
  let some id := primaryDefinition.id?
    | throw (.broken d.key (.primaryWithoutId primaryDefinition.name))
  let key := d.foreignKey primary id
  let draft ← .read (·.draft foreign.definition)
  if draft.hasAttribute key.name then
    throw (.broken d.key (.foreignKeyTaken key.name draft.name))
  InPlace.change foreign.definition (.addData key)
  return .finished (.association ⟨d.key, d.package, endA, endB, .foreignKey side key.name⟩)

/-- What a definition becomes: of all kinds, simple associations only have a write. -/
def constructInPlace (d : Definition) : InPlace (List Slot) :=
  match EntityKind.ofName? d.entity.name with
  | none => throw (.sketch (.unknownEntity d.key d.entity.name))
  | some .dataType => return []
  | some .constraint => .only fun _ => makeConstraint d
  | some .formatter => .only fun _ => makeFormatter d
  | some .domain => .only (·.makeDomain d)
  | some .entityDefinition => .only (·.makeEntityDefinition d)
  | some .fragment => .only (·.makeFragment d)
  | some .association => do return [← makeSimpleInPlace d]
  | some .manyToMany => .only (·.makeManyToMany d)
  | some kind => throw (.sketch (.notTopLevel d.key kind.name))

end Workbench

end Metamodel
