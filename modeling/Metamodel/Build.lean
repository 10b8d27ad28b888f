import Metamodel.Project
import Metamodel.Settings

set_option autoImplicit false

/-! # Builds from files

Loading model files into a project, and the notebook of a list of files or of settings. Files are
loaded in order, up to the first that cannot be read or fails to load. -/

namespace Metamodel

variable {m : Type → Type} [Monad m] [FileStore m]

namespace Project

/-- The project after loading a file, and the error if that fails. -/
def loadFile (p : Project) (path : String) : m (Project × Except ModelError Unit) := do
  match ← FileStore.readText? path with
  | some text => return p.load path text
  | none => return (p, .error (.source (.unreadable path)))

/-- The project after loading some files up to the first that fails, and the error of that. -/
def loadFiles (p : Project) : List String → m (Project × Except ModelError Unit)
  | [] => return (p, .ok ())
  | path :: paths => do
    match ← p.loadFile path with
    | (p, .ok ()) => p.loadFiles paths
    | (p, .error e) => return (p, .error e)

/-- The notebook of some files, on no prior notebook. -/
def compileFiles (paths : List String) : ExceptT ModelError m Notebook := do
  let (p, loaded) ← (start .standard).loadFiles paths
  liftExcept loaded
  liftExcept (p.compile .empty)
where
  liftExcept {α : Type} (r : Except ModelError α) : ExceptT ModelError m α := ExceptT.mk (pure r)

end Project

/-- The notebook that settings describe. -/
def Settings.compile (s : Settings) (base : String) : ExceptT ModelError m Notebook := do
  let files ← ExceptT.adapt .settings (s.sourceFiles base)
  Project.compileFiles files

end Metamodel
