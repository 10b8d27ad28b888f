import Metamodel.Construction.Definitions
import Metamodel.Construction.Relations

set_option autoImplicit false

/-! # Construction: from definitions to slots of a workbench

Each kind of entity has its own construction. All read the workbench; only a simple association also
writes to it, by adding its foreign key to the draft at its many-valued end. -/

namespace Metamodel

namespace Workbench

/-- Finished constraint. -/
def makeConstraint (d : Definition) : Except ModelError Slot := do
  return .finished (.constraint (← d.toConstraint))

/-- Finished formatter. -/
def makeFormatter (d : Definition) : Except ModelError Slot := do
  return .finished (.formatter (← d.toFormatter))

/-- Finished domain. -/
def makeDomain (b : Workbench) (d : Definition) : Except ModelError Slot := do
  return .finished (.domain (← d.toDomain b))

/-- Draft of an entity definition. -/
def makeEntityDefinition (b : Workbench) (d : Definition) : Except ModelError Slot := do
  return .draft (← d.toEntityDraft b)

/-- Draft of a fragment. -/
def makeFragment (b : Workbench) (d : Definition) : Except ModelError Slot := do
  return .draft (← d.toFragmentDraft b)

/-- Finished simple association, and the workbench with its foreign key. -/
def makeSimple (b : Workbench) (d : Definition) : Except ModelError (Workbench × Slot) := do
  let (association, foreign, key) ← d.toSimple b
  return (b.change foreign (.addData key), .finished (.association association))

/-- Finished association by a join table. -/
def makeManyToMany (b : Workbench) (d : Definition) : Except ModelError Slot := do
  return .finished (.association (← d.toManyToMany b))

/-- What a definition of the standard grammar becomes: nothing for a data type, a slot for anything
else that can stand on its own. The slot is not on the workbench yet. -/
def construct (b : Workbench) (d : Definition) : Except ModelError (Workbench × List Slot) :=
  let only (s : Except ModelError Slot) := s.map fun s => (b, [s])
  match EntityKind.ofName? d.entity.name with
  | none => .error (.sketch (.unknownEntity d.key d.entity.name))
  | some .dataType => .ok (b, [])
  | some .constraint => only (makeConstraint d)
  | some .formatter => only (makeFormatter d)
  | some .domain => only (b.makeDomain d)
  | some .entityDefinition => only (b.makeEntityDefinition d)
  | some .fragment => only (b.makeFragment d)
  | some .association => (b.makeSimple d).map fun r => (r.1, [r.2])
  | some .manyToMany => only (b.makeManyToMany d)
  | some kind => .error (.sketch (.notTopLevel d.key kind.name))

/-- Constructs a definition and takes its slots on. -/
def supply (b : Workbench) (d : Definition) : Except ModelError Workbench := do
  let (b, slots) ← b.construct d
  slots.foldlM (fun b s => (b.accept s).mapError .notebook) b

end Workbench

end Metamodel
