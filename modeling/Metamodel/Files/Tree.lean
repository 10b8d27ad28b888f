import Metamodel.Files.Path
import Metamodel.Files.Store

set_option autoImplicit false

/-! # Trees of files

A file system held as a value. A place in it is the list of names on the way from the root, and each
place is a directory, a file or empty. Paths are followed component by component: every step needs
a directory to stand in, `..` leads back, and from the root to the root. A path that file systems do
not accept leads nowhere, and nothing is created on the way.

Stateful computations over a tree have access to its files. -/

namespace Metamodel

/-- What stands at a place. -/
inductive FileNode
  | directory
  | file (text : String)
deriving DecidableEq, Repr

/-- A file system and the directory that relative paths start in. The root is always there. -/
structure FileTree where
  workingDirectory : List String
  nodes : List (List String × FileNode)

namespace FileTree

/-- A tree whose only directories are those on the way to its working directory. -/
def empty (workingDirectory : List String) : FileTree :=
  ⟨workingDirectory,
    (List.range (workingDirectory.length + 1)).map fun n => (workingDirectory.take n, .directory)⟩

/-- What stands at a place, if anything does. -/
def node? (t : FileTree) (place : List String) : Option FileNode :=
  if place = [] then some .directory else t.nodes.lookup place

/-- The tree with something put at a place. -/
def set (t : FileTree) (place : List String) (node : FileNode) : FileTree :=
  { t with nodes := (place, node) :: t.nodes.filter (·.1 != place) }

/-! ## Following paths -/

/-- The place one component further. -/
def step (t : FileTree) (place : List String) (component : String) : Option (List String) :=
  if t.node? place = some .directory then
    if component = "" ∨ component = "." then some place
    else if component = ".." then some place.dropLast
    else if Path.isNameLength component then some (place ++ [component])
    else none
  else none

/-- The place a path starts at. -/
def start (t : FileTree) (path : String) : List String :=
  if Path.isAbsolute path then [] else t.workingDirectory

/-- The place a path leads to. It may be empty, but what is on the way has to exist. -/
def place? (t : FileTree) (path : String) : Option (List String) :=
  if path ≠ "" ∧ Path.isAccepted path then (Path.components path).foldlM t.step (t.start path)
  else none

/-- What a path leads to. -/
def find? (t : FileTree) (path : String) : Option FileNode := (t.place? path).bind t.node?

/-! ## Reading -/

/-- The text of the file a path leads to. -/
def text? (t : FileTree) (path : String) : Option String :=
  match t.find? path with
  | some (.file text) => some text
  | _ => none

/-- The names of the files in the directory at a place. -/
def filesIn (t : FileTree) (place : List String) : List String :=
  t.nodes.filterMap fun (p, node) => match node with
    | .file _ => if p.dropLast = place then p.getLast? else none
    | .directory => none

/-- The names of the files in the directory a path leads to. -/
def fileNames? (t : FileTree) (path : String) : Option (List String) :=
  if t.find? path = some .directory then (t.place? path).map t.filesIn else none

/-! ## Writing -/

/-- One component further, with a directory created where there is nothing. -/
def enter (s : FileTree × Option (List String)) (component : String) :
    FileTree × Option (List String) :=
  let (t, here) := s
  match here.bind (t.step · component) with
  | none => (t, none)
  | some place => match t.node? place with
    | none => (t.set place .directory, some place)
    | some .directory => (t, some place)
    | some (.file _) => (t, none)

/-- The tree with all directories along a path, and whether they could be created. -/
def makeDirectories (t : FileTree) (path : String) : Bool × FileTree :=
  if path = "" then (true, t)
  else if !Path.isAccepted path then (false, t)
  else
    let (t, reached) := (Path.components path).foldl enter (t, some (t.start path))
    (reached.isSome, t)

/-- The tree with a text in the file a path leads to, and whether it could be written. -/
def writeText (t : FileTree) (path text : String) : Bool × FileTree :=
  match t.place? path with
  | none => (false, t)
  | some place =>
    if t.node? place = some .directory then (false, t) else (true, t.set place (.file text))

end FileTree

instance : FileStore (StateM FileTree) where
  readText? path := return (← get).text? path
  isDirectory path := return (← get).find? path == some .directory
  fileNames? path := return (← get).fileNames? path
  makeDirectories path := modifyGet (·.makeDirectories path)
  writeText path text := modifyGet (·.writeText path text)

end Metamodel
