import Metamodel.InPlace
import Metamodel.Repository.Basic

set_option autoImplicit false

/-! # Filling a repository in place

The steps of filling a repository as programs that work on it in place. Adding a definition has three
parts: it is followed by all that it implies, then their keys are checked, and then they are stored
one after the other. It does not end if definitions imply others without end. -/

namespace Metamodel

namespace Repository

/-- A program that works on a repository in place, and may run for ever. -/
abbrev InPlace (ε α : Type) := Metamodel.InPlace Option Repository ε α

/-- Refuses the first key that is stored or has been `seen` before. -/
def checkKeys (seen : List String) : List Definition → InPlace RepositoryError Unit
  | [] => return
  | d :: ds => do
    if (← get).contains d.key || seen.contains d.key then throw (.duplicate d.key)
    checkKeys (d.key :: seen) ds

/-- Stores a definition under its key, in place of one that has the key. -/
def store {ε : Type} (d : Definition) : InPlace ε Unit :=
  modify fun r => { r with definitions := Named.put d r.definitions }

/-- Stores definitions one after the other. -/
def storeAll {ε : Type} : List Definition → InPlace ε Unit
  | [] => return
  | d :: ds => do
    store d
    storeAll ds

/-- Adds a definition and everything it implies. -/
def addInPlace (d : Definition) : InPlace RepositoryError Unit := do
  let r ← get
  let pending ← liftM (Dialect.scan r.dialect.implied [d] 0)
  checkKeys [] pending
  storeAll pending

/-- Queues an alteration. -/
def alterInPlace {ε : Type} (d : Definition) : InPlace ε Unit := modify (·.alter d)

/-- Declares that a name is defined elsewhere. -/
def declareInPlace {ε : Type} (name : String) : InPlace ε Unit := modify (·.declare name)

end Repository

end Metamodel
