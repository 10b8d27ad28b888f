import Metamodel.Command.Execution

set_option autoImplicit false

/-! # The command line program

Gives commands the files of the machine, prints what they give, and ends with their status. -/

namespace Metamodel

/-- The result of an action, or `default` if it fails. -/
def orElse {α : Type} (default : α) (action : IO α) : IO α := do
  try action catch _ => return default

/-- The names of the plain files in a directory. -/
def namesIn (path : String) : IO (List String) := do
  let entries ← (← IO.FS.realPath path).readDir
  let files ← entries.toList.filterM fun entry => do
    return (← entry.path.metadata).type == IO.FS.FileType.file
  return files.map (·.fileName)

instance : FileStore IO where
  readText? path := orElse none do return some (← IO.FS.readFile path)
  isDirectory path := orElse false do (← IO.FS.realPath path).isDir
  fileNames? path := orElse none do return some (← namesIn path)
  makeDirectories path := orElse false do
    if !Path.isAccepted path then return false
    IO.FS.createDirAll path
    return true
  writeText path text := orElse false do
    IO.FS.writeFile path text
    return true

/-- Does what the arguments ask for and gives the exit status. -/
def runProgram (arguments : List String) : IO UInt32 := do
  match ← (Request.execute arguments : ExceptT CommandError IO String).run with
  | .ok text => do
    IO.print text
    return 0
  | .error e => do
    IO.eprintln ("error: " ++ e.message)
    return UInt32.ofNat e.status

end Metamodel

/-- The program. -/
def main (arguments : List String) : IO UInt32 := Metamodel.runProgram arguments
