import Metamodel.Command.Arguments

set_option autoImplicit false

/-! # Commands

What can be asked for on the command line: to compile a model described by settings, to check model
files, to show a sketch of theirs or to list their sketches; and to say how to ask. -/

namespace Metamodel

/-- A command with its arguments. -/
inductive Command
  /-- Writes the notebook that the settings in a file describe. -/
  | compile (settings : String) (output : Option String)
  /-- Checks that model files compile. -/
  | check (files : List String)
  /-- Shows one sketch. -/
  | show (files : List String) (name : String)
  /-- Lists the sketches, of all kinds or of the kind that a word asks for. -/
  | list (files : List String) (kind : Option String)
deriving DecidableEq, Repr

/-- The names of the commands. -/
inductive CommandName
  | compile
  | check
  | show
  | list
deriving DecidableEq, Repr

namespace CommandName

/-- All names. -/
def all : List CommandName := [.compile, .check, .show, .list]

/-- The word for a command. -/
def word : CommandName → String
  | .compile => "compile"
  | .check => "check"
  | .show => "show"
  | .list => "list"

/-- The command that a word asks for. -/
def ofWord? (word : String) : Option CommandName := all.find? (·.word == word)

/-- What a command takes. -/
def signature : CommandName → Signature
  | .compile => ⟨[⟨"out", true⟩], false⟩
  | .check => ⟨[], true⟩
  | .show => ⟨[⟨"name", false⟩], true⟩
  | .list => ⟨[⟨"kind", false⟩], true⟩

/-- How a command is written. -/
def usage : CommandName → String
  | .compile => "compile SETTINGS [--out FILE]"
  | .check => "check FILE..."
  | .show => "show FILE... --name NAME"
  | .list => "list FILE... [--kind KIND]"

end CommandName

/-- What arguments ask for. -/
inductive Request
  | run (command : Command)
  | help
  | version
deriving DecidableEq, Repr

namespace Command

/-- The command of the given name, if its arguments are complete. -/
def ofArguments (name : CommandName) (a : Arguments) : Except UsageError Command :=
  match name, a.operands with
  | .compile, [] => .error (.missing "SETTINGS")
  | .compile, settings :: _ => .ok (.compile settings (a.value? "out"))
  | _, [] => .error (.missing "FILE")
  | .check, files => .ok (.check files)
  | .show, files => match a.value? "name" with
    | some name => .ok (.show files name)
    | none => .error (.missing "--name")
  | .list, files => .ok (.list files (a.value? "kind"))

end Command

namespace Request

/-- What the arguments behind the word `help` ask for: help, on a command if there is one. -/
def ofTopics : List String → Except UsageError Request
  | [] => .ok .help
  | [topic] =>
    if topic = "help" ∨ (CommandName.ofWord? topic).isSome then .ok .help
    else .error (.unknownCommand topic)
  | _ :: topic :: _ => .error (.unknownCommand topic)

/-- What some arguments ask for. -/
def parse : List String → Except UsageError Request
  | [] => .error .noCommand
  | word :: rest =>
    match CommandName.ofWord? word with
    | some name => do
      match ← name.signature.sort rest with
      | some a => return .run (← Command.ofArguments name a)
      | none => return .help
    | none =>
      let form := ArgumentForm.of word
      if word = "help" then ofTopics rest
      else if form.asksHelp then .ok .help
      else if form = .long "version" none ∨ form = .short 'V' then .ok .version
      else if form = .operand then .error (.unknownCommand word)
      else .error (.unexpected word)

end Request

end Metamodel
