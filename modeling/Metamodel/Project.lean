import Metamodel.Construction
import Metamodel.Text.Loading

set_option autoImplicit false

/-! # Projects

A project is a repository with the list of sources loaded into it. Compiling it solves the
repository, constructs each definition on a workbench over a prior notebook, and freezes the
workbench. The project stays as it is, so it can be compiled again. -/

namespace Metamodel

/-- A repository and the names of the sources loaded into it. -/
structure Project where
  repository : Repository
  sources : List String

namespace Project

/-- A project without sources. -/
def start (dialect : Dialect) : Project := ⟨Repository.start dialect, []⟩

/-- The project after loading a source. A source that fails may have had an effect on the
repository, but does not count as loaded. -/
def load (p : Project) (source text : String) : Project × Except ModelError Unit :=
  match p.repository.load source text with
  | (r, .ok ()) => (⟨r, p.sources ++ [source]⟩, .ok ())
  | (r, .error e) => ({ p with repository := r }, .error e)

/-- Loads a source into a project in place. A source counts as loaded once all of it is. -/
def loadInPlace (source text : String) : InPlace Option Project ModelError Unit := do
  .within Project.repository (fun r p => { p with repository := r })
    (Repository.loadInPlace source text)
  modify fun p => { p with sources := p.sources ++ [source] }

/-- The project after loading some sources, each given by its name and text, or the first error. -/
def loadAll (p : Project) : List (String × String) → Except ModelError Project
  | [] => .ok p
  | (source, text) :: rest => match p.load source text with
    | (p, .ok ()) => p.loadAll rest
    | (_, .error e) => .error e

/-- The notebook that a project makes of a prior one. -/
def compile (p : Project) (prior : Notebook) : Except ModelError Notebook := do
  let definitions ← p.repository.solve prior
  let bench ← definitions.foldlM Workbench.supply (Workbench.start prior)
  bench.freeze

end Project

end Metamodel
