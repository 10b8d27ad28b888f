set_option autoImplicit false

/-! # Access to files

What a build needs of a file system, for any monad that can provide it. Each operation answers
whether it worked; why one did not is never asked. -/

namespace Metamodel

/-- A monad with access to text files and directories. -/
class FileStore (m : Type → Type) where
  /-- The text of a file, if it can be read. -/
  readText? : String → m (Option String)
  /-- Whether a path leads to a directory. -/
  isDirectory : String → m Bool
  /-- The names of the plain files in a directory, in any order, if it can be read. -/
  fileNames? : String → m (Option (List String))
  /-- Creates a directory and those on the way to it, as far as they do not exist. -/
  makeDirectories : String → m Bool
  /-- Creates a file or replaces its text. -/
  writeText : String → String → m Bool

/-- Computations that can fail have the files of the computations they are made of. -/
instance {ε : Type} {m : Type → Type} [Monad m] [FileStore m] : FileStore (ExceptT ε m) where
  readText? path := ExceptT.lift (FileStore.readText? path)
  isDirectory path := ExceptT.lift (FileStore.isDirectory path)
  fileNames? path := ExceptT.lift (FileStore.fileNames? path)
  makeDirectories path := ExceptT.lift (FileStore.makeDirectories path)
  writeText path text := ExceptT.lift (FileStore.writeText path text)

end Metamodel
