set_option autoImplicit false

/-! # Arguments of a command

Arguments are operands and options. An option is written `--name value` or `--name=value` and given
at most once; a value on its own starts with no hyphen, unless it is nothing but a hyphen. Behind
`--` everything is an operand. Operands are paths, and a path is never empty.

`Signature` says what a command takes, and `Signature.sort` sorts arguments from left to right, up
to the first that does not fit or that asks for help. -/

namespace Metamodel

/-- Why arguments do not form a command. -/
inductive UsageError
  | noCommand
  | unknownCommand (word : String)
  | unexpected (argument : String)
  | missingValue (option : String)
  | repeated (option : String)
  | emptyPath
  | missing (argument : String)
deriving DecidableEq, Repr

/-- The message for an error. -/
def UsageError.message : UsageError → String
  | .noCommand => "a command is required"
  | .unknownCommand word => "unknown command \"" ++ word ++ "\""
  | .unexpected argument => "unexpected argument \"" ++ argument ++ "\""
  | .missingValue option => "option --" ++ option ++ " needs a value"
  | .repeated option => "option --" ++ option ++ " is given twice"
  | .emptyPath => "a path is empty"
  | .missing argument => argument ++ " is required"

/-- An option of a command. -/
structure OptionForm where
  name : String
  /-- Whether its value is a path. -/
  isPath : Bool
deriving DecidableEq, Repr

/-- What a command takes. -/
structure Signature where
  options : List OptionForm
  /-- Whether there may be several operands. -/
  manyOperands : Bool
deriving DecidableEq, Repr

/-- Arguments sorted into operands and the values of options. -/
structure Arguments where
  operands : List String
  values : List (String × String)
deriving DecidableEq, Repr

/-- The value of an option. -/
def Arguments.value? (a : Arguments) (option : String) : Option String := a.values.lookup option

/-! ## Forms of arguments -/

/-- What an argument is by its form. -/
inductive ArgumentForm
  /-- Two hyphens: everything that follows is an operand. -/
  | separator
  /-- A name behind two hyphens, and the text behind an equals sign. -/
  | long (name : String) (value : Option String)
  /-- A letter behind one hyphen. -/
  | short (letter : Char)
  | operand
deriving DecidableEq, Repr

/-- The form of an argument. -/
def ArgumentForm.of (argument : String) : ArgumentForm :=
  match argument.toList with
  | ['-', '-'] => .separator
  | '-' :: '-' :: cs =>
    .long (String.ofList (cs.takeWhile (· != '='))) <| match cs.dropWhile (· != '=') with
      | [] => none
      | _ :: value => some (String.ofList value)
  | '-' :: letter :: _ => .short letter
  | _ => .operand

/-- Whether an argument asks for help. -/
def ArgumentForm.asksHelp (f : ArgumentForm) : Bool := f = .long "help" none || f = .short 'h'

namespace Signature

variable (s : Signature)

/-- The arguments with one more operand. -/
def addOperand (a : Arguments) (path : String) : Except UsageError Arguments :=
  if a.operands ≠ [] ∧ s.manyOperands = false then .error (.unexpected path)
  else if path = "" then .error .emptyPath
  else .ok { a with operands := a.operands ++ [path] }

/-- The arguments with the value of one more option. -/
def addValue (a : Arguments) (option : OptionForm) (value : String) : Except UsageError Arguments :=
  if (a.value? option.name).isSome then .error (.repeated option.name)
  else if option.isPath ∧ value = "" then .error .emptyPath
  else .ok { a with values := a.values ++ [(option.name, value)] }

/-- Sorts arguments behind those sorted already. There is no result if help is asked for. -/
def sortFrom (a : Arguments) : List String → Except UsageError (Option Arguments)
  | [] => .ok (some a)
  | argument :: rest =>
    match ArgumentForm.of argument with
    | .separator => do return some (← rest.foldlM s.addOperand a)
    | .operand => do sortFrom (← s.addOperand a argument) rest
    | .short letter => if letter = 'h' then .ok none else .error (.unexpected argument)
    | .long name value =>
      match s.options.find? (·.name == name) with
      | none => if name = "help" ∧ value = none then .ok none else .error (.unexpected argument)
      | some option =>
        match value, rest with
        | some value, rest => do sortFrom (← addValue a option value) rest
        | none, [] => .error (.missingValue name)
        | none, value :: rest =>
          if ArgumentForm.of value = .operand then do
            sortFrom (← addValue a option value) rest
          else .error (.missingValue name)

/-- The arguments sorted, unless help is asked for. -/
def sort (arguments : List String) : Except UsageError (Option Arguments) :=
  s.sortFrom ⟨[], []⟩ arguments

end Signature

end Metamodel
