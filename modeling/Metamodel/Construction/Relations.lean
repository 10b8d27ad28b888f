import Metamodel.Construction.Values
import Metamodel.Text.Trim

set_option autoImplicit false

/-! # Associations from their definitions

A simple association has one many-valued end. The entity definition at that end, which has to be
still a draft, gets a foreign key to the other one, the primary end. An association of two
many-valued ends is realised by a table instead and adds nothing to either. -/

namespace Metamodel

namespace Definition

/-! ## Ends -/

/-- What an association says about its ends before their roles are known. -/
structure EndShapes where
  multiplicityA : Multiplicity
  multiplicityB : Multiplicity
  navigableA : Bool
  navigableB : Bool
deriving DecidableEq, Repr

/-- The multiplicities that a type of association stands for. -/
def typeMultiplicities? (type : String) : Option (Multiplicity × Multiplicity) :=
  if type = "*>1" then some (.zeroOrMany, .one)
  else if type = "*>?" then some (.zeroOrMany, .zeroOrOne)
  else if type = "*>*" then some (.zeroOrMany, .zeroOrMany)
  else none

/-- A multiplicity that has to be given because no type is. -/
def multiplicity (d : Definition) (field : String) : Except SketchError Multiplicity :=
  match d.text? field with
  | none => .error (d.broken (.requiredWithoutType field))
  | some s => match Multiplicity.ofSign? s with
    | some m => .ok m
    | none => .error (d.broken (.unknownMultiplicity field s))

/-- A navigability that has to be given because no type is. -/
def navigability (d : Definition) (field : String) : Except SketchError Bool :=
  match d.flag? field with
  | none => .error (d.broken (.requiredWithoutType field))
  | some b => .ok b

/-- The shapes of both ends, from the type of the association or from what is given for each. -/
def endShapes (d : Definition) : Except SketchError EndShapes :=
  match d.text? FieldName.associationType with
  | some type =>
    if d.isFilled FieldName.multiplicityA || d.isFilled FieldName.multiplicityB then
      .error (d.broken .typeWithMultiplicities)
    else match typeMultiplicities? type with
      | none => .error (d.broken (.unknownAssociationType type))
      | some (a, b) => .ok {
          multiplicityA := a
          multiplicityB := b
          navigableA := (d.flag? FieldName.navigabilityA).getD false
          navigableB := (d.flag? FieldName.navigabilityB).getD true }
  | none => do
    let multiplicityA ← d.multiplicity FieldName.multiplicityA
    let multiplicityB ← d.multiplicity FieldName.multiplicityB
    let navigableA ← d.navigability FieldName.navigabilityA
    let navigableB ← d.navigability FieldName.navigabilityB
    return ⟨multiplicityA, multiplicityB, navigableA, navigableB⟩

/-- The roles of both ends. They are the names of the definitions unless given, and have to be given
and differ if both ends are of one definition. -/
def roles (d : Definition) (definitionA definitionB : String) :
    Except SketchError (String × String) :=
  let roleA := d.text? FieldName.roleA
  let roleB := d.text? FieldName.roleB
  if definitionA = definitionB ∧ (roleA = none ∨ roleB = none ∨ roleA = roleB) then
    .error (d.broken (.equalRoles definitionA))
  else .ok (roleA.getD definitionA, roleB.getD definitionB)

/-- Both ends of an association. -/
def ends (d : Definition) (definitionA definitionB : String) (shapes : EndShapes) :
    Except SketchError (AssociationEnd × AssociationEnd) := do
  let (roleA, roleB) ← d.roles definitionA definitionB
  return (
    { definition := definitionA
      navigable := shapes.navigableA
      role := roleA
      label := (d.text? FieldName.labelA).getD roleA
      multiplicity := shapes.multiplicityA },
    { definition := definitionB
      navigable := shapes.navigableB
      role := roleB
      label := (d.text? FieldName.labelB).getD roleB
      multiplicity := shapes.multiplicityB })

/-- The side of the only single-valued end. -/
def primarySide (d : Definition) (shapes : EndShapes) : Except SketchError Side :=
  match shapes.multiplicityA.isMany, shapes.multiplicityB.isMany with
  | true, true => .error (d.broken .bothEndsMany)
  | false, false => .error (d.broken .noEndMany)
  | true, false => .ok .b
  | false, true => .ok .a

/-! ## Simple associations -/

/-- The ends A and B of a simple association and the side of its primary end. -/
def simpleEnds (d : Definition) :
    Except SketchError (AssociationEnd × AssociationEnd × Side) := do
  let definitionA ← d.requireTarget FieldName.definitionA
  let definitionB ← d.requireTarget FieldName.definitionB
  let shapes ← d.endShapes
  let side ← d.primarySide shapes
  let (endA, endB) ← d.ends definitionA definitionB shapes
  return (endA, endB, side)

/-- The foreign key that refers to the identifier of the primary end. -/
def foreignKey (d : Definition) (primary : AssociationEnd) (id : Attribute) : DataDraft where
  name := (d.text? FieldName.foreignKeyName).getD id.name
  label := primary.label
  domain := id.domain
  cardinality := if primary.multiplicity.isNotNull then .one else .optional
  role := .foreignKey primary.definition

/-- The simple association that a definition describes, with the foreign key that it asks for at
its many-valued end. -/
def toSimple (b : Workbench) (d : Definition) :
    Except ModelError (Association × String × DataDraft) := do
  let (endA, endB, side) ← d.simpleEnds
  let primary := side.pick endA endB
  let foreign := side.other.pick endA endB
  let primaryDefinition ← b.entityDefinition primary.definition
  let some id := primaryDefinition.id?
    | .error (.broken d.key (.primaryWithoutId primaryDefinition.name))
  let key := d.foreignKey primary id
  let draft ← b.draft foreign.definition
  if draft.hasAttribute key.name then
    .error (.broken d.key (.foreignKeyTaken key.name draft.name))
  return (⟨d.key, d.package, endA, endB, .foreignKey side key.name⟩, foreign.definition, key)

/-! ## Many-to-many associations -/

/-- The association of two many-valued ends that a definition describes. -/
def toManyToMany (b : Workbench) (d : Definition) : Except ModelError Association := do
  let definitionA ← d.requireTarget FieldName.definitionA
  let definitionB ← d.requireTarget FieldName.definitionB
  discard <| b.entityDefinition definitionA
  discard <| b.entityDefinition definitionB
  let table := trim (← d.requireText FieldName.tableName)
  if table = "" then
    .error (.broken d.key .emptyTableName)
  let (endA, endB) ← d.ends definitionA definitionB {
    multiplicityA := .zeroOrMany
    multiplicityB := .zeroOrMany
    navigableA := (d.flag? FieldName.navigabilityA).getD true
    navigableB := (d.flag? FieldName.navigabilityB).getD true }
  return ⟨d.key, d.package, endA, endB, .joinTable table⟩

end Definition

end Metamodel
