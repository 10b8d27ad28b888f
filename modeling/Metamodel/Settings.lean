import Metamodel.Error
import Metamodel.Files.Path
import Metamodel.Files.Store
import Metamodel.Toml.Reading

set_option autoImplicit false

/-! # Settings of a build

The settings of a build name the model, its sources and where the notebook goes. They are kept in a
TOML file:

    [model]
    name = "shop"
    sources = ["common.mdl", "model"]

    [output]
    path = "out/notebook.json"
    pretty = true

Only the name is required. Sources and output are relative to a base directory, as a rule that of
the file. A source that is a directory stands for the model files in it. -/

namespace Metamodel

/-- The settings of a build. -/
structure Settings where
  name : String
  sources : List String
  /-- Where to write the notebook. -/
  output : Option String
  /-- Whether the notebook is written indented. -/
  pretty : Bool
deriving DecidableEq, Repr

namespace Settings

/-- The settings of a model that say nothing of the output. -/
def ofSources (name : String) (sources : List String) : Settings := ⟨name, sources, none, true⟩

/-! ## The TOML form -/

/-- A value under a key read by `read`, or `default` if there is none. -/
def valueOr {α : Type} (entries : Toml.Entries) (key : String) (default : α)
    (read : Toml → Option α) : Option α :=
  match Named.value? entries key with
  | some value => read value
  | none => some default

/-- The settings in a document. Values of other types than expected spoil it, other keys do not. -/
def ofToml? (entries : Toml.Entries) : Option Settings := do
  let model ← (← Named.value? entries "model").record? ["name", "sources"]
  let output ← valueOr entries "output" [] (Toml.record? ["path", "pretty"])
  return {
    name := ← (← Named.value? model "name").string?
    sources := ← valueOr model "sources" [] fun v => v.items?.bind (List.mapM Toml.string?)
    output := ← valueOr output "path" none fun v => v.string?.map some
    pretty := ← valueOr output "pretty" true Toml.boolean? }

/-- The settings as the text of a document. -/
def toToml (s : Settings) : String :=
  let text (s : String) := String.ofList (Toml.quote s)
  let path := match s.output with
    | some path => "path = " ++ text path ++ "\n"
    | none => ""
  "[model]\nname = " ++ text s.name ++
    "\nsources = [" ++ String.intercalate ", " (s.sources.map text) ++ "]\n\n[output]\n" ++ path ++
    "pretty = " ++ (if s.pretty then "true" else "false") ++ "\n"

/-! ## Settings in files -/

variable {m : Type → Type} [Monad m] [FileStore m]

/-- Reads settings from a file. -/
def load (path : String) : ExceptT SettingsError m Settings := do
  let some text ← FileStore.readText? path | throw (.unreadable path)
  let some settings := (Toml.read? text).bind ofToml? | throw (.malformed path)
  return settings

/-- Writes a text to a file, in a directory that is created if it does not exist. The path that
could not be written is the error. -/
def writeFile (path text : String) : ExceptT String m Unit := do
  match Path.parent? path with
  | some parent =>
    unless parent.isEmpty do
      unless ← FileStore.makeDirectories parent do throw parent
  | none => pure ()
  unless ← FileStore.writeText path text do throw path

/-- Writes settings to a file. -/
def save (s : Settings) (path : String) : ExceptT SettingsError m Unit :=
  ExceptT.adapt .unwritable (writeFile path s.toToml)

/-! ## Sources and output -/

/-- Whether a file holds model text by its name: it ends in `.mdl` and is more than that. -/
def isModelFile (name : String) : Bool :=
  ".mdl".toList.isSuffixOf name.toList && name != ".mdl"

/-- The files a source stands for: the model files of a directory in the order of their names, or
else the path itself. -/
def expand (path : String) : ExceptT SettingsError m (List String) := do
  if ← FileStore.isDirectory path then
    let some names ← FileStore.fileNames? path | throw (.unreadable path)
    let files := (names.filter isModelFile).mergeSort fun a b => decide (a ≤ b)
    return files.map (Path.join path)
  else return [path]

/-- The files of all sources, in order. There has to be one. -/
def sourceFiles (s : Settings) (base : String) : ExceptT SettingsError m (List String) := do
  let files ← s.sources.mapM fun source => expand (Path.join base source)
  if files.flatten.isEmpty then throw (.noSources s.name)
  return files.flatten

/-- The path of the output. -/
def outputPath? (s : Settings) (base : String) : Option String := s.output.map (Path.join base)

end Settings

end Metamodel
