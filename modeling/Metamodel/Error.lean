import Metamodel.Definition.Conformance
import Metamodel.Definition.LinkOrder
import Metamodel.Model.Rule
import Metamodel.Notebook.Basic
import Metamodel.Text.Reading

set_option autoImplicit false

/-! # Errors of a build

Every part of a build has its own type of errors. `ModelError` is their sum, with the three texts
that are shown for an error: its message, the identifier of its kind and advice. -/

namespace Metamodel

/-- Why definitions cannot be stored together. -/
inductive RepositoryError
  | duplicate (key : String)
  /-- A definition that does not exist is altered. -/
  | orphanAlteration (key : String)
  /-- A definition is altered as one of another entity. -/
  | alteredEntity (key base alteration : String)
deriving DecidableEq, Repr

namespace RepositoryError

/-- The message for an error. -/
def message : RepositoryError → String
  | .duplicate key => "duplicate definition: \"" ++ key ++ "\""
  | .orphanAlteration key => "partial definition targets unknown definition \"" ++ key ++ "\""
  | .alteredEntity key base alteration =>
    "partial definition \"" ++ key ++ "\" is a " ++ alteration ++
      " but the base definition is a " ++ base

/-- The identifier of the kind of error. -/
def code : RepositoryError → String
  | .duplicate .. => "modelbook::raw::duplicate"
  | .orphanAlteration .. => "modelbook::raw::orphan_partial"
  | .alteredEntity .. => "modelbook::raw::partial_mismatch"

/-- Advice on an error. -/
def help : RepositoryError → String
  | .duplicate .. =>
    "A definition with this name was already added to the repository. " ++
      "Rename one of them, or use `alter` to contribute to the existing one. " ++
      "Note that every entity definition `X` implicitly declares a domain `DoX`."
  | .orphanAlteration .. =>
    "An `alter` block needs a matching `create` for the same name in one of the loaded sources."
  | .alteredEntity .. =>
    "An `alter` block must use the same entity kind as the definition it extends."

end RepositoryError

/-- Why a model source cannot be loaded. -/
inductive SourceError
  /-- The text of the source has no statements. -/
  | syntaxError (source : String) (error : SyntaxError)
  | unreadable (path : String)
  | unknownEntity (source entity : String) (span : Span)
  | unknownField (source entity field : String) (span : Span)
deriving DecidableEq, Repr

namespace SourceError

/-- The message for an error. -/
def message : SourceError → String
  | .syntaxError _ e => "syntax error: " ++ e.message
  | .unreadable path => "failed to read model source " ++ path
  | .unknownEntity _ entity _ => "unknown entity \"" ++ entity ++ "\""
  | .unknownField _ entity field _ => entity ++ " has no field \"" ++ field ++ "\""

/-- The identifier of the kind of error. -/
def code : SourceError → String
  | .syntaxError .. => "modelbook::loader::syntax"
  | .unreadable .. => "modelbook::loader::io"
  | .unknownEntity .. => "modelbook::loader::unknown_entity"
  | .unknownField .. => "modelbook::loader::unknown_field"

/-- Advice on an error. -/
def help : SourceError → String
  | .syntaxError .. =>
    "Statements are `package <name>;`, `create <Entity> <name>` or " ++
      "`alter <Entity> <name>` followed by a braced body, and " ++
      "`declare <Entity> <name>;`. Body entries are `<field>: \"value\";`, " ++
      "`<field>: Key;`, `<field>: [A, B];` or a nested `<child> <name>` block."
  | .unreadable .. => "Check that the file exists and is readable."
  | .unknownEntity .. =>
    "The grammar has no entity with this name. Built-in entities are Constraint, " ++
      "Formatter, Domain, DtDefinition, Fragment, Association and AssociationNN."
  | .unknownField .. =>
    "Check the spelling against the entity's fields. Nested blocks may be " ++
      "introduced by the child field name (e.g. `id`, `field`) or by the child " ++
      "entity name (e.g. `IdField`, `DataField`)."

/-- The source and the place in it that an error is about. -/
def location? : SourceError → Option (String × Span)
  | .syntaxError source e => some (source, e.span)
  | .unreadable _ => none
  | .unknownEntity source _ span => some (source, span)
  | .unknownField source _ _ span => some (source, span)

end SourceError

/-- Why the settings of a build cannot be used. -/
inductive SettingsError
  | unreadable (path : String)
  | malformed (path : String)
  | unwritable (path : String)
  | noSources (model : String)
deriving DecidableEq, Repr

namespace SettingsError

/-- The message for an error. -/
def message : SettingsError → String
  | .unreadable path => "failed to read config: " ++ path
  | .malformed path => "failed to parse config: " ++ path
  | .unwritable path => "failed to write config: " ++ path
  | .noSources model => "model \"" ++ model ++ "\" has no sources"

/-- The identifier of the kind of error. -/
def code : SettingsError → String
  | .unreadable .. => "modelbook::config::read"
  | .malformed .. => "modelbook::config::parse"
  | .unwritable .. => "modelbook::config::write"
  | .noSources .. => "modelbook::config::no_sources"

/-- Advice on an error. -/
def help : SettingsError → String
  | .unreadable .. => "Ensure the config file exists and is valid TOML."
  | .malformed .. => "Check the TOML syntax; `[model]` needs `name` and `sources`."
  | .unwritable .. => "Ensure you have write permissions to the target directory."
  | .noSources .. => "List at least one `.mdl` file or directory in `[model] sources`."

end SettingsError

/-- Why a build fails. -/
inductive ModelError
  | repository (error : RepositoryError)
  | conformance (fault : Fault)
  | links (error : LinkError)
  | sketch (error : SketchError)
  | notebook (error : NotebookError)
  | source (error : SourceError)
  | settings (error : SettingsError)
deriving DecidableEq, Repr

namespace ModelError

/-- The message for an error. -/
def message : ModelError → String
  | .repository e => e.message
  | .conformance f => f.message
  | .links e => e.message
  | .sketch e => e.message
  | .notebook e => e.message
  | .source e => e.message
  | .settings e => e.message

/-- The identifier of the kind of error. -/
def code : ModelError → String
  | .repository e => e.code
  | .conformance f => f.code
  | .links e => e.code
  | .sketch e => e.code
  | .notebook e => e.code
  | .source e => e.code
  | .settings e => e.code

/-- Advice on an error. -/
def help : ModelError → String
  | .repository e => e.help
  | .conformance f => f.help
  | .links e => e.help
  | .sketch e => e.help
  | .notebook e => e.help
  | .source e => e.help
  | .settings e => e.help

/-- The error that a definition breaks a rule of the model. -/
abbrev broken (key : String) (rule : Rule) : ModelError := .sketch (.broken key rule)

/-- Steps that fail with an error of the model are steps of a build. -/
instance : MonadLift (Except SketchError) (Except ModelError) := ⟨Except.mapError .sketch⟩

/-- Steps that fail with an error of a notebook are steps of a build. -/
instance : MonadLift (Except NotebookError) (Except ModelError) := ⟨Except.mapError .notebook⟩

end ModelError

end Metamodel
