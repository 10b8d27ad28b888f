import Metamodel.Error
import Metamodel.Repository.Dialect

set_option autoImplicit false

/-! # Repositories

A repository stores the definitions of a build under their keys, together with alterations that wait
for their definition and with names declared to be defined elsewhere. Adding a definition adds
everything it implies, or nothing if one of the keys is taken.

`Repository.solve` leaves the repository as it is and says what is to be constructed, in which
order: it merges the alterations, checks where links stand, orders the definitions by their links,
checks each one, and drops those that are provided from outside. The first of these steps that fails
decides the error. -/

namespace Metamodel

/-- Definitions waiting to be solved. -/
structure Repository where
  dialect : Dialect
  definitions : List Definition
  alterations : List Definition
  declared : List String

namespace Repository

/-- A repository that holds only the roots of its grammar; of roots with one key the last counts. -/
def start (dialect : Dialect) : Repository where
  dialect := dialect
  definitions := dialect.grammar.roots.foldl (fun ds d => Named.put d ds) []
  alterations := []
  declared := []

/-- The definition of the given key. -/
def get? (r : Repository) (key : String) : Option Definition := Named.get? r.definitions key

/-- Whether a definition of the given key is stored. -/
def contains (r : Repository) (key : String) : Bool := Named.has r.definitions key

/-- Whether a name is declared to be defined elsewhere. -/
def isDeclared (r : Repository) (name : String) : Bool := r.declared.contains name

/-- The entity of the given name. -/
def entity? (r : Repository) (name : String) : Option Entity := r.dialect.grammar.entity? name

/-! ## Filling a repository -/

/-- The first key of some definitions that is taken or stands before. -/
def firstTaken (taken : List String) : List Definition → Option String
  | [] => none
  | d :: ds => if d.key ∈ taken then some d.key else firstTaken (d.key :: taken) ds

/-- Adds a definition and everything it implies, if all the keys are free. -/
def add (r : Repository) (d : Definition) : Except RepositoryError Repository :=
  let added := r.dialect.closure d
  match firstTaken (Named.names r.definitions) added with
  | some key => .error (.duplicate key)
  | none => .ok { r with definitions := r.definitions ++ added }

/-- Some names and one more, which is put at the end unless it is among them. -/
def addName (names : List String) (name : String) : List String :=
  if name ∈ names then names else names ++ [name]

theorem mem_addName {names : List String} {name n : String} :
    n ∈ addName names name ↔ n = name ∨ n ∈ names := by
  unfold addName
  split
  · next h => simp only [iff_or_self]; rintro rfl; exact h
  · simp [or_comm]

/-- Queues an alteration of the definition of the same key, which may be added later. -/
def alter (r : Repository) (d : Definition) : Repository :=
  { r with alterations := r.alterations ++ [d] }

/-- Declares that a name is defined elsewhere. -/
def declare (r : Repository) (name : String) : Repository :=
  { r with declared := addName r.declared name }

/-! ## Solving -/

/-- Merges an alteration into the definition of the same key. -/
def mergeOne (ds : List Definition) (change : Definition) :
    Except RepositoryError (List Definition) :=
  match Named.get? ds change.key with
  | none => .error (.orphanAlteration change.key)
  | some base =>
    if base.entity.name = change.entity.name then
      .ok (Named.modify change.key (·.merge change) ds)
    else .error (.alteredEntity change.key base.entity.name change.entity.name)

/-- The stored definitions with all alterations merged, in the order in which they were queued. -/
def merged (r : Repository) : Except RepositoryError (List Definition) :=
  r.alterations.foldlM mergeOne r.definitions

/-- Whether a name is satisfied from outside: the prior notebook has it, or it is declared, and no
definition of the name is stored. -/
def isExternal (r : Repository) (prior : Notebook) (name : String) : Bool :=
  !r.contains name && (prior.contains name || r.isDeclared name)

/-- The definitions to construct on top of a prior notebook, in order. -/
def solve (r : Repository) (prior : Notebook) : Except ModelError (List Definition) := do
  let definitions ← r.merged.mapError .repository
  definitions.forM fun d => d.checkLinkFields.mapError .conformance
  let ordered ← (Definition.order (r.isExternal prior) definitions).mapError .links
  ordered.forM fun d => d.check.mapError .conformance
  return ordered.filter (!·.entity.isProvided)

end Repository

end Metamodel
