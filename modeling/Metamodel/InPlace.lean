set_option autoImplicit false

/-! # Programs that work in place

A function that gives a new state or an error has nothing to say about the state behind an error. A
program that works on a state in place has: if it fails, whatever it has done until then stays.

Programs are written in the monad `InPlace m σ ε`, where `σ` is the state, `ε` the error, and `m` says
whether there is an end at all: `Id` for programs that always end, `Option` for those that may run
for ever. `InPlace.on` is the outcome of a program with the state that it leaves, and `settled` is
the outcome that a function would have if an error left the state as it was. -/

namespace Metamodel

/-- A program that works on a state in place. -/
abbrev InPlace (m : Type → Type) (σ ε α : Type) := ExceptT ε (StateT σ m) α

namespace InPlace

variable {m : Type → Type} {σ τ ε ε' α β : Type}

/-- What the program gives, and the state it leaves. -/
def on (x : InPlace m σ ε α) (s : σ) : m (Except ε α × σ) := x.run.run s

/-- The outcome of a function on a state that an error leaves as it was. -/
def settled (s : σ) : Except ε (σ × α) → Except ε α × σ
  | .ok (s', a) => (.ok a, s')
  | .error e => (.error e, s)

variable [Monad m]

/-- Reads the state. -/
def read (f : σ → Except ε α) : InPlace m σ ε α := do
  match f (← get) with
  | .ok a => return a
  | .error e => throw e

/-- The program on a part of a state, which is put back whether the program fails or not. -/
def within (part : τ → σ) (put : σ → τ → τ) (x : InPlace m σ ε α) : InPlace m τ ε α :=
  ExceptT.mk fun t => do
    let (a, s) ← x.on (part t)
    return (a, put s t)

theorem on_within (part : τ → σ) (put : σ → τ → τ) (x : InPlace m σ ε α) (t : τ) :
    (within part put x).on t = x.on (part t) >>= fun r => pure (r.1, put r.2 t) := rfl

theorem on_pure (a : α) (s : σ) : (pure a : InPlace m σ ε α).on s = pure (.ok a, s) := rfl

theorem on_throw (e : ε) (s : σ) : (throw e : InPlace m σ ε α).on s = pure (.error e, s) := rfl

/-- What follows is done on the state that was left, unless there was an error. -/
theorem on_bind (x : InPlace m σ ε α) (f : α → InPlace m σ ε β) (s : σ) :
    (x >>= f).on s = x.on s >>= fun
      | (.ok a, s') => (f a).on s'
      | (.error e, s') => pure (.error e, s') := by
  show (x.on s >>= fun r => (ExceptT.bindCont f r.1).run r.2) = _
  congr 1
  funext r
  rcases r with ⟨_ | _, _⟩ <;> rfl

section Lawful

variable [LawfulMonad m]

theorem on_get (s : σ) : (get : InPlace m σ ε σ).on s = pure (.ok s, s) := by
  show ((pure (s, s) : m (σ × σ)) >>= fun r => pure (Except.ok r.1, r.2)) = _
  exact pure_bind _ _

theorem on_modify (f : σ → σ) (s : σ) :
    (modify f : InPlace m σ ε Unit).on s = pure (.ok (), f s) := by
  show ((pure ((), f s) : m (Unit × σ)) >>= fun r => pure (Except.ok r.1, r.2)) = _
  exact pure_bind _ _

theorem on_liftM (x : m α) (s : σ) :
    (liftM x : InPlace m σ ε α).on s = (fun a => (.ok a, s)) <$> x := by
  show ((x >>= fun a => pure (a, s)) >>= fun r : α × σ => pure (Except.ok r.1, r.2)) = _
  rw [bind_assoc, map_eq_pure_bind]
  simp only [pure_bind]

theorem on_read (f : σ → Except ε α) (s : σ) :
    (read f : InPlace m σ ε α).on s = pure (f s, s) := by
  rw [read, on_bind, on_get, pure_bind]
  show on (match f s with | .ok a => pure a | .error e => throw e) s = _
  cases f s with
  | ok a => exact on_pure a s
  | error e => exact on_throw e s

theorem on_adapt (g : ε → ε') (x : InPlace m σ ε α) (s : σ) :
    on (ExceptT.adapt g x : InPlace m σ ε' α) s =
      (fun r => (r.1.mapError g, r.2)) <$> x.on s := by
  rw [map_eq_pure_bind]
  rfl

end Lawful

end InPlace

end Metamodel
