import Metamodel.Model.EntityDefinition

set_option autoImplicit false

/-! # The rules of the model

Definitions that conform to their entity can still break a rule of the model, such as that a stored
entity definition has exactly one identifier. `Rule` lists the ways to break one, and `SketchError`
says for which definition it happened. -/

namespace Metamodel

/-- A way to break a rule of the model. -/
inductive Rule
  /-- A field that has to be filled is not. -/
  | required (field : String)
  -- domains
  | refinedObjectDomain (dataType : String)
  | objectDomainWithoutType (dataType : String)
  | primitiveDomainWithType
  | unsupportedDataType (dataType : String)
  | unknownObjectDefinition (definition : String)
  -- entity definitions
  | unknownStereotype (stereotype : String)
  | unknownCardinality (cardinality : String)
  | persistentComputed (field : String)
  | severalIds (count : Nat)
  | idRequired (stereotype : Stereotype)
  | idForbidden (stereotype : Stereotype)
  | fragmentMismatch
  | malformedDataSpace (dataSpace : String)
  | duplicateAttribute (field : String)
  | frozenDefinition
  -- associations
  | typeWithMultiplicities
  | unknownAssociationType (type : String)
  | requiredWithoutType (field : String)
  | unknownMultiplicity (field value : String)
  | bothEndsMany
  | noEndMany
  | equalRoles (definition : String)
  | primaryWithoutId (definition : String)
  | foreignKeyTaken (name definition : String)
  | emptyTableName
deriving DecidableEq, Repr

/-- The rule in words, with what broke it. -/
def Rule.text : Rule → String
  | .required field => "\"" ++ field ++ "\" is required"
  | .refinedObjectDomain t =>
    "formatter and constraints are only allowed on primitive domains, not " ++ t
  | .objectDomainWithoutType t => "a " ++ t ++ " domain requires a TYPE"
  | .primitiveDomainWithType => "TYPE is only allowed on DtObject and ValueObject domains"
  | .unsupportedDataType t => "unsupported data type \"" ++ t ++ "\""
  | .unknownObjectDefinition d =>
    "data object domain refers to unknown entity definition \"" ++ d ++ "\""
  | .unknownStereotype s => "unknown stereotype \"" ++ s ++ "\""
  | .unknownCardinality c => "cardinality \"" ++ c ++ "\" must be one of 1, ?, *"
  | .persistentComputed a => "computed field \"" ++ a ++ "\" cannot be persistent"
  | .severalIds n => "exactly one identifier field allowed, found " ++ toString n
  | .idRequired s => "stereotype " ++ s.name ++ " requires exactly one identifier field"
  | .idForbidden s => "stereotype " ++ s.name ++ " cannot have an identifier field"
  | .fragmentMismatch =>
    "stereotype Fragment is reserved to definitions with a fragment origin"
  | .malformedDataSpace s =>
    "data space \"" ++ s ++ "\" must match ^[a-z][a-zA-Z0-9]\x7b3,60\x7d$"
  | .duplicateAttribute a => "duplicate field \"" ++ a ++ "\""
  | .frozenDefinition =>
    "entity definition is frozen in a prior notebook and cannot receive new fields"
  | .typeWithMultiplicities => "type and explicit multiplicities are mutually exclusive"
  | .unknownAssociationType t => "type \"" ++ t ++ "\" must be one of *>1, *>?, *>*"
  | .requiredWithoutType f => f ++ " is required when no type shorthand is given"
  | .unknownMultiplicity f v => f ++ " \"" ++ v ++ "\" must be one of 0..1, 1..1, 0..*, 1..*"
  | .bothEndsMany =>
    "both ends are multiple: use the Many-to-Many declaration (AssociationNN)"
  | .noEndMany => "one-to-one associations are forbidden: one end must be multiple"
  | .equalRoles d =>
    "self-referencing association on \"" ++ d ++ "\" requires distinct roleA and roleB"
  | .primaryWithoutId d => "primary entity definition \"" ++ d ++ "\" has no identifier field"
  | .foreignKeyTaken k d =>
    "foreign key \"" ++ k ++ "\" already exists on \"" ++ d ++ "\"; set fkFieldName"
  | .emptyTableName => "tableName must not be empty"

/-- Why a definition does not become a sketch. -/
inductive SketchError
  /-- The definition `key` breaks a rule of the model. -/
  | broken (key : String) (rule : Rule)
  /-- An attribute is named that `key` does not have. -/
  | attributeNotFound (key field : String)
  /-- A definition that only stands inside another one stands on its own. -/
  | notTopLevel (key entity : String)
  /-- The entity is none of the standard grammar. -/
  | unknownEntity (key entity : String)
deriving DecidableEq, Repr

namespace SketchError

/-- The message for an error. -/
def message : SketchError → String
  | .broken key rule => "invalid definition \"" ++ key ++ "\": " ++ rule.text
  | .attributeNotFound key field =>
    "field \"" ++ field ++ "\" not found on \"" ++ key ++ "\""
  | .notTopLevel key entity => entity ++ " \"" ++ key ++ "\" cannot be declared at top level"
  | .unknownEntity key entity =>
    "no sketch factory handles entity " ++ entity ++ " (definition \"" ++ key ++ "\")"

/-- The identifier of the kind of error. -/
def code : SketchError → String
  | .broken .. => "modelbook::sketch::invariant"
  | .attributeNotFound .. => "modelbook::sketch::field_not_found"
  | .notTopLevel .. => "modelbook::sketch::not_top_level"
  | .unknownEntity .. => "modelbook::sketch::unknown_entity"

/-- Advice on an error. -/
def help : SketchError → String
  | .broken .. => "The definition is structurally valid but breaks a rule of the model."
  | .attributeNotFound .. =>
    "Sort, display, handle and alias fields must name a field that exists on the definition."
  | .notTopLevel .. =>
    "Field entities are only valid nested inside an entity definition or fragment."
  | .unknownEntity .. =>
    "The raw definition was built against a grammar the active factory does not know."

end SketchError

end Metamodel
