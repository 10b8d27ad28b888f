import Metamodel.Build
import Metamodel.Command.Basic
import Metamodel.Notebook.Document
import Metamodel.Notebook.Summary

set_option autoImplicit false

/-! # Execution of commands

A command reads and writes files and gives the text it prints. A command that fails prints nothing
but the reason, which goes elsewhere. -/

namespace Metamodel

/-- Why a command fails. -/
inductive CommandError
  | usage (error : UsageError)
  | model (error : ModelError)
  | unknownKind (word : String)
  | unwritable (path : String)
deriving DecidableEq, Repr

namespace CommandError

/-- The message for an error. -/
def message : CommandError → String
  | .usage e => e.message
  | .model e => e.message
  | .unknownKind word =>
    "unknown sketch kind \"" ++ word ++
      "\" (expected constraint, formatter, domain, entity or association)"
  | .unwritable path => "failed to write " ++ path

/-- The exit status of a command that fails. -/
def status : CommandError → Nat
  | .usage _ => 2
  | _ => 1

end CommandError

namespace Command

variable {m : Type → Type} [Monad m] [FileStore m]

/-- The text of a list of sketches. -/
def listing (sketches : List Sketch) : String :=
  if sketches.isEmpty then "No sketches.\n"
  else
    let line (s : Sketch) := "  " ++ s.name ++ " [" ++ s.kind.name ++ "]\n"
    "Sketches (" ++ toString sketches.length ++ "):\n" ++ String.join (sketches.map line)

/-- The kind that a word asks for. -/
def kindOf (word : String) : Except CommandError SketchKind :=
  match SketchKind.ofWord? word with
  | some kind => .ok kind
  | none => .error (.unknownKind word)

/-- A computation that can fail with an error of the model, as part of a command. -/
def building {α : Type} : ExceptT ModelError m α → ExceptT CommandError m α :=
  ExceptT.adapt .model

/-- Compiles what the settings describe. The notebook goes to `output`, or else to where the settings
say, or else it is printed. -/
def runCompile (path : String) (output : Option String) : ExceptT CommandError m String := do
  let settings ← building (ExceptT.adapt .settings (Settings.load path))
  let base := (Path.parent? path).getD "."
  let notebook ← building (settings.compile base)
  let document := notebook.document settings.pretty
  match output.or (settings.outputPath? base) with
  | some target => do
    ExceptT.adapt .unwritable (Settings.writeFile target document)
    return "Compiled model \"" ++ settings.name ++ "\" to " ++ target ++ "\n" ++
      notebook.summary ++ "\n"
  | none => return document ++ "\n"

/-- Runs a command and gives what it prints. -/
def run : Command → ExceptT CommandError m String
  | .compile settings output => runCompile settings output
  | .check files => do
    let notebook ← building (Project.compileFiles files)
    return "OK: " ++ toString files.length ++ " file(s), " ++ toString notebook.size ++
      " sketch(es)\n" ++ notebook.summary ++ "\n"
  | .show files name => do
    let notebook ← building (Project.compileFiles files)
    match notebook.get? name with
    | some sketch => return sketch.toJson.render .indented ++ "\n"
    | none => throw (.model (.notebook (.notFound name)))
  | .list files word => do
    let kind ← ExceptT.mk (pure (word.mapM kindOf))
    let notebook ← building (Project.compileFiles files)
    return listing <| notebook.sketches.filter fun s => match kind with
      | some kind => s.kind == kind
      | none => true

end Command

namespace Request

/-- How commands are written. -/
def helpText : String :=
  "Usage: modelbook COMMAND\n\nCommands:\n" ++
    String.join (CommandName.all.map fun c => "  " ++ c.usage ++ "\n") ++
    "  help\n\nOptions:\n  -h, --help\n  -V, --version\n"

/-- Does what some arguments ask for and gives what is printed. -/
def execute {m : Type → Type} [Monad m] [FileStore m] (arguments : List String) :
    ExceptT CommandError m String := do
  match parse arguments with
  | .error e => throw (.usage e)
  | .ok .help => return helpText
  | .ok .version => return "modelbook 0.1.0\n"
  | .ok (.run command) => command.run

end Request

end Metamodel
