import Metamodel.Construction.Values

set_option autoImplicit false

/-! # Drafts of entity definitions from their definitions

Entity definitions and fragments become drafts, which are built once to see that they can be. The
attributes of a fragment are, in order: one for each alias of an attribute of its origin, its own
ones, and a foreign key to its origin unless an alias already shows the identifier of the origin. -/

namespace Metamodel

namespace Definition

/-! ## Attributes -/

/-- The cardinality that an attribute gives, or else `default`. -/
def cardinalityOr (d : Definition) (default : Cardinality) : Except SketchError Cardinality :=
  match d.text? FieldName.cardinality with
  | none => .ok default
  | some s => match Cardinality.ofSign? s with
    | some c => .ok c
    | none => .error (d.broken (.unknownCardinality s))

/-- The domain of an attribute, which has to be a finished domain. -/
def attributeDomain (b : Workbench) (d : Definition) : Except ModelError String := do
  let domain ← d.requireTarget FieldName.domain
  discard <| liftM (b.resolve domain .domain)
  return domain

/-- The identifier that a child describes. -/
def toIdDraft (b : Workbench) (d : Definition) : Except ModelError IdDraft := do
  let domain ← d.attributeDomain b
  let label ← d.requireText FieldName.label
  return ⟨d.key, label, domain⟩

/-- The data attribute that a child describes. -/
def toDataDraft (b : Workbench) (d : Definition) : Except ModelError DataDraft := do
  let domain ← d.attributeDomain b
  let label ← d.requireText FieldName.label
  let cardinality ← d.cardinalityOr .optional
  return ⟨d.key, label, domain, cardinality, .own (d.flag? FieldName.persistent)⟩

/-- The computed attribute that a child of `parent` describes. -/
def toComputedDraft (b : Workbench) (parent d : Definition) :
    Except ModelError ComputedDraft := do
  if d.flag? FieldName.persistent = some true then
    .error (.broken parent.key (.persistentComputed d.key))
  let domain ← d.attributeDomain b
  let label ← d.requireText FieldName.label
  let cardinality ← d.cardinalityOr .optional
  let expression ← d.requireText FieldName.expression
  return ⟨d.key, label, domain, cardinality, expression⟩

/-! ## Entity definitions -/

/-- The stereotype that a definition gives. -/
def stereotype? (d : Definition) : Except SketchError (Option Stereotype) :=
  match d.text? FieldName.stereotype with
  | none => .ok none
  | some s => match Stereotype.ofName? s with
    | some t => .ok (some t)
    | none => .error (d.broken (.unknownStereotype s))

/-- A draft, if it can be built. -/
def buildable (draft : EntityDraft) : Except ModelError EntityDraft :=
  match draft.build with
  | .ok _ => .ok draft
  | .error e => .error (.sketch e)

/-- The draft of the entity definition that a definition describes. -/
def toEntityDraft (b : Workbench) (d : Definition) : Except ModelError EntityDraft := do
  let stereotype ← d.stereotype?
  let ids ← (d.childrenOf FieldName.ids).mapM (·.toIdDraft b)
  let data ← (d.childrenOf FieldName.fields).mapM (·.toDataDraft b)
  let computed ← (d.childrenOf FieldName.computed).mapM (d.toComputedDraft b)
  buildable {
    name := d.key
    package := d.package
    stereotype := stereotype
    dataSpace := d.text? FieldName.dataSpace
    ids := ids
    data := data
    computed := computed
    sort := d.text? FieldName.sortField
    display := d.text? FieldName.displayField
    handle := d.text? FieldName.handleField
    origin := none }

/-! ## Fragments -/

/-- The attribute by which a fragment shows an attribute of its origin: a foreign key to the origin
for its identifier, data that is not stored for any other. -/
def toAlias (origin : EntityDefinition) (originName : String) (d : Definition) :
    Except SketchError DataDraft :=
  match origin.attribute? d.key with
  | none => .error (.attributeNotFound originName d.key)
  | some shown => do
    let cardinality ← d.cardinalityOr shown.cardinality
    return {
      name := d.key
      label := (d.text? FieldName.label).getD shown.label
      domain := shown.domain
      cardinality := cardinality
      role := if shown.isId then .foreignKey originName else .own (some false) }

/-- The attributes by which a fragment shows attributes of its origin. -/
def toAliases (d : Definition) (origin : EntityDefinition) (originName : String) :
    Except SketchError (List DataDraft) :=
  (d.childrenOf FieldName.aliases).mapM (toAlias origin originName)

/-- The foreign key to the origin that a fragment gets if no alias shows the identifier. -/
def backReference (origin : EntityDefinition) (originName : String) (aliases : List DataDraft) :
    List DataDraft :=
  if aliases.any (·.role = .foreignKey originName) then []
  else match origin.id? with
    | some id => [⟨id.name, id.label, id.domain, .one, .foreignKey originName⟩]
    | none => []

/-- The attribute that a fragment selects: the one it names, or else the one its origin selects if
the fragment has an attribute of that name. -/
def selection (given : Option String) (inherited : Option Attribute) (draft : EntityDraft) :
    Option String :=
  given.or ((inherited.map Attribute.name).filter draft.hasAttribute)

/-- The draft of the fragment that a definition describes. -/
def toFragmentDraft (b : Workbench) (d : Definition) : Except ModelError EntityDraft := do
  let originName ← d.requireTarget FieldName.origin
  let origin ← b.entityDefinition originName
  let aliases ← d.toAliases origin originName
  let data ← (d.childrenOf FieldName.fields).mapM (·.toDataDraft b)
  let computed ← (d.childrenOf FieldName.computed).mapM (d.toComputedDraft b)
  let draft : EntityDraft := {
    name := d.key
    package := d.package
    stereotype := none
    dataSpace := some ((d.text? FieldName.dataSpace).getD origin.dataSpace)
    ids := []
    data := aliases ++ data ++ backReference origin originName aliases
    computed := computed
    sort := none
    display := none
    handle := none
    origin := some originName }
  buildable { draft with
    sort := selection (d.text? FieldName.sortField) origin.sortAttribute? draft
    display := selection (d.text? FieldName.displayField) origin.displayAttribute? draft
    handle := selection (d.text? FieldName.handleField) origin.handleAttribute? draft }

end Definition

end Metamodel
