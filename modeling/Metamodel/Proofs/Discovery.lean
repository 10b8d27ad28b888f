import Mathlib.Logic.Relation
import Metamodel.Proofs.Filling

set_option autoImplicit false

/-! # Adding a definition with all that it implies

Whoever adds a definition adds what it implies, what that implies, and so on. `Discovers` says in
which order: the definitions wait in a queue, and what the first of them implies is put behind all
that wait. So all are found that follow from the definition and no others (`Discovers.mem_iff`).
`Dialect.scan` finds them in just this order, and comes to an end if there is an end to find
(`Dialect.scan_eq_some_iff`). In a dialect in which nothing is implied without end (`IsFinite`) that
is generation by generation (`Dialect.scan_eq_closure`); whatever definitions imply, if they do so
for some generations only, they make up such a dialect (`Dialect.exists_isFinite`).

Then adding is all or nothing (`Repository.add_allOrNothing`). This is said of the program that adds
in place, which has a state to show when it fails, and of the repositories that such programs lead
to: if a key of the definitions found is stored or occurs twice among them, the repository is left as
it was, and otherwise they are stored behind what is there, in the order of discovery. -/

namespace Metamodel

namespace Dialect

/-! ## Generations -/

section Generations

variable (implied : Definition → List Definition)

/-- What some definitions imply in `n` steps. -/
def generation : Nat → List Definition → List Definition
  | 0, ds => ds
  | n + 1, ds => generation n (ds.flatMap implied)

theorem generation_succ (n : Nat) (ds : List Definition) :
    generation implied (n + 1) ds = (generation implied n ds).flatMap implied := by
  induction n generalizing ds with
  | zero => rfl
  | succ n ih => exact ih (ds.flatMap implied)

/-! ## The order of discovery -/

/-- Reading a queue of definitions finds some definitions, in this order: each one that is read puts
what it implies behind all that wait. -/
inductive Discovers : List Definition → List Definition → Prop
  | nil : Discovers [] []
  | cons {d : Definition} {queue found : List Definition}
    (h : Discovers (queue ++ implied d) found) : Discovers (d :: queue) (d :: found)

variable {implied}

/-- A queue is read in one way only. -/
theorem Discovers.unique {queue found found' : List Definition}
    (h : Discovers implied queue found) (h' : Discovers implied queue found') : found = found' := by
  induction h generalizing found' with
  | nil =>
    cases h'
    rfl
  | cons _ ih =>
    cases h' with
    | cons h' => rw [ih h']

/-- What stands in front is read first, and what it implies waits behind the rest. -/
theorem Discovers.append {ds queue found : List Definition}
    (h : Discovers implied (queue ++ ds.flatMap implied) found) :
    Discovers implied (ds ++ queue) (ds ++ found) := by
  induction ds generalizing queue with
  | nil => simpa using h
  | cons d ds ih =>
    rw [List.flatMap_cons, ← List.append_assoc] at h
    rw [List.cons_append, List.cons_append]
    refine .cons ?_
    rw [List.append_assoc]
    exact ih h

/-- What is found is what follows from the queue. -/
theorem Discovers.mem_iff {queue found : List Definition} (h : Discovers implied queue found)
    (x : Definition) :
    x ∈ found ↔ ∃ d ∈ queue, Relation.ReflTransGen (fun a b => b ∈ implied a) d x := by
  induction h with
  | nil => simp
  | @cons d queue found _ ih =>
    rw [List.mem_cons, ih]
    constructor
    · intro hx
      rcases hx with rfl | ⟨a, ha, hax⟩
      · exact ⟨x, List.mem_cons_self, .refl⟩
      · rcases List.mem_append.1 ha with hqueue | himplied
        · exact ⟨a, List.mem_cons_of_mem d hqueue, hax⟩
        · exact ⟨d, List.mem_cons_self, .head himplied hax⟩
    · intro hx
      obtain ⟨a, ha, hax⟩ := hx
      rcases List.mem_cons.1 ha with rfl | hqueue
      · -- Either `a` itself, or something that it implies leads to `x`.
        rcases Relation.ReflTransGen.cases_head hax with rfl | ⟨c, hc, hcx⟩
        · exact .inl rfl
        · exact .inr ⟨c, List.mem_append_right queue hc, hcx⟩
      · exact .inr ⟨a, List.mem_append_left _ hqueue, hax⟩

end Generations

/-! ## Finite dialects -/

/-- No definition implies others without end: behind the generations that the dialect counts for a
definition nothing is implied any more. -/
def IsFinite (dialect : Dialect) : Prop :=
  ∀ d, generation dialect.implied (dialect.generations d + 1) [d] = []

/-- Definitions that do not imply others without end make up a finite dialect. -/
theorem exists_isFinite (grammar : Grammar) {implied : Definition → List Definition}
    (h : ∀ d, ∃ n, generation implied n [d] = []) :
    ∃ dialect : Dialect, dialect.grammar = grammar ∧ dialect.implied = implied ∧
      dialect.IsFinite := by
  choose generations hnone using h
  refine ⟨⟨grammar, implied, generations⟩, rfl, rfl, fun d => ?_⟩
  show generation implied (generations d + 1) [d] = []
  rw [generation_succ, hnone]
  rfl

/-- Entity definitions imply domains, and domains imply nothing. -/
theorem isFinite_ofGrammar (grammar : Grammar) : (ofGrammar grammar).IsFinite := by
  intro d
  have hdomain : ∀ d, impliedDomains (implicitDomain d) = [] := fun _ => rfl
  show ([d].flatMap impliedDomains).flatMap impliedDomains = []
  rw [List.flatMap_singleton]
  unfold impliedDomains
  split
  · exact hdomain d
  · exact hdomain d
  · rfl

/-- Generation by generation is an order of discovery if the last generation implies nothing. -/
theorem discovers_descendants (dialect : Dialect) {n : Nat} {ds : List Definition}
    (h : generation dialect.implied (n + 1) ds = []) :
    Discovers dialect.implied ds (dialect.descendants n ds) := by
  induction n generalizing ds with
  | zero =>
    have hnone : Discovers dialect.implied ([] ++ ds.flatMap dialect.implied) [] := by
      rw [List.nil_append, show ds.flatMap dialect.implied = [] from h]
      exact .nil
    simpa [descendants] using hnone.append
  | succ n ih =>
    have hrest : Discovers dialect.implied ([] ++ ds.flatMap dialect.implied) _ := ih h
    simpa [descendants] using hrest.append

theorem discovers_closure {dialect : Dialect} (h : dialect.IsFinite) (d : Definition) :
    Discovers dialect.implied [d] (dialect.closure d) :=
  dialect.discovers_descendants (h d)

/-! ## Scanning a growing list -/

section Scanning

variable {implied : Definition → List Definition}

/-- A scan keeps what it has read in front, and the rest is the queue. -/
theorem Discovers.scan_eq {queue found : List Definition} (h : Discovers implied queue found)
    (before : List Definition) :
    scan implied (before ++ queue) before.length = some (before ++ found) := by
  induction h generalizing before with
  | nil => rw [List.append_nil, scan, dif_neg (Nat.lt_irrefl _)]
  | @cons d queue found _ ih =>
    have hnext := ih (before ++ [d])
    rw [List.append_cons, List.append_cons before d found, ← hnext, scan, dif_pos (by simp)]
    simp

/-- What a scan has found when it ends is read off the queue in that order. -/
theorem discovers_of_scan {pending all : List Definition} {n : Nat}
    (h : scan implied pending n = some all) :
    ∃ found, Discovers implied (pending.drop n) found := by
  refine scan.partial_correctness implied
    (fun pending n _ => ∃ found, Discovers implied (pending.drop n) found) ?_ _ _ _ h
  intro scan ih pending n all hstep
  split at hstep
  · next hlt =>
    obtain ⟨found, hfound⟩ := ih _ _ _ hstep
    rw [List.drop_append_of_le_length hlt] at hfound
    rw [List.drop_eq_getElem_cons hlt]
    exact ⟨_, .cons hfound⟩
  · next hend => exact ⟨[], by rw [List.drop_of_length_le (Nat.le_of_not_lt hend)]; exact .nil⟩

/-- A scan for what follows from a definition ends with the definitions in the order of their
discovery, if it ends. -/
theorem scan_eq_some_iff {d : Definition} {found : List Definition} :
    scan implied [d] 0 = some found ↔ Discovers implied [d] found := by
  constructor
  · intro h
    obtain ⟨found', hfound⟩ := discovers_of_scan h
    have heq : scan implied [d] 0 = some found' := hfound.scan_eq []
    rw [h, Option.some.injEq] at heq
    rwa [heq]
  · intro h
    exact h.scan_eq []

/-- The scan for a definition that implies others for some generations only comes to an end. -/
theorem exists_discovers {d : Definition} (h : ∃ n, generation implied n [d] = []) :
    ∃ found, Discovers implied [d] found := by
  obtain ⟨n, hn⟩ := h
  refine ⟨_, discovers_descendants ⟨.empty, implied, fun _ => n⟩ (n := n) ?_⟩
  rw [generation_succ, hn, List.flatMap_nil]

end Scanning

/-- In a finite dialect the scan finds the generations. -/
theorem scan_eq_closure {dialect : Dialect} (h : dialect.IsFinite) (d : Definition) :
    scan dialect.implied [d] 0 = some (dialect.closure d) :=
  scan_eq_some_iff.2 (discovers_closure h d)

end Dialect

namespace Repository

/-! ## Keys that are taken -/

/-- A key among the definitions is stored, or occurs twice among them. -/
def Clashes (r : Repository) (ds : List Definition) : Prop :=
  (∃ x ∈ ds, r.contains x.key = true) ∨ ¬(Definition.keys ds).Nodup

/-- The key that is reported is the first one that is stored or has occurred before. -/
def FirstClash (r : Repository) (ds : List Definition) (key : String) : Prop :=
  ∃ before x after, ds = before ++ x :: after ∧ x.key = key ∧ ¬r.Clashes before ∧
    r.Clashes (before ++ [x])

theorem not_clashes_iff {r : Repository} {ds : List Definition} :
    ¬r.Clashes ds ↔ firstTaken (Named.names r.definitions) ds = none := by
  have hstored : (∃ x ∈ ds, r.contains x.key = true) ↔
      ∃ key ∈ Definition.keys ds, key ∈ Named.names r.definitions := by
    simp [contains, Named.has_iff, Named.names, Named.nameOf]
  rw [firstTaken_eq_none_iff, Clashes, hstored]
  push Not
  exact and_comm

theorem clashes_of_firstTaken {r : Repository} {ds : List Definition} {key : String}
    (h : firstTaken (Named.names r.definitions) ds = some key) : r.Clashes ds := by
  by_contra hfree
  rw [not_clashes_iff, h] at hfree
  cases hfree

theorem exists_of_firstTaken {taken : List String} {ds : List Definition} {key : String}
    (h : firstTaken taken ds = some key) :
    ∃ before x after, ds = before ++ x :: after ∧ x.key = key ∧
      firstTaken taken before = none ∧ firstTaken taken (before ++ [x]) = some key := by
  induction ds generalizing taken with
  | nil => cases h
  | cons d ds ih =>
    by_cases hd : d.key ∈ taken
    · rw [firstTaken, if_pos hd, Option.some.injEq] at h
      refine ⟨[], d, ds, rfl, h, rfl, ?_⟩
      rw [List.nil_append, firstTaken, if_pos hd, h]
    · rw [firstTaken, if_neg hd] at h
      obtain ⟨before, x, after, rfl, hkey, hnone, hsome⟩ := ih h
      refine ⟨d :: before, x, after, rfl, hkey, ?_, ?_⟩
      · rw [firstTaken, if_neg hd, hnone]
      · rw [List.cons_append, firstTaken, if_neg hd, hsome]

theorem firstClash_of_firstTaken {r : Repository} {ds : List Definition} {key : String}
    (h : firstTaken (Named.names r.definitions) ds = some key) : r.FirstClash ds key := by
  obtain ⟨before, x, after, hsplit, hkey, hnone, hsome⟩ := exists_of_firstTaken h
  exact ⟨before, x, after, hsplit, hkey, not_clashes_iff.2 hnone, clashes_of_firstTaken hsome⟩

/-! ## Adding in place -/

open Metamodel.InPlace

/-- The keys of some definitions are checked one after the other, and checking changes nothing. -/
theorem on_checkKeys (r : Repository) (seen : List String) (ds : List Definition) :
    (checkKeys seen ds).on r =
      some (match firstTaken (seen ++ Named.names r.definitions) ds with
        | some key => .error (.duplicate key)
        | none => .ok (), r) := by
  induction ds generalizing seen with
  | nil => rfl
  | cons d ds ih =>
    have htaken : (r.contains d.key || seen.contains d.key) = true ↔
        d.key ∈ seen ++ Named.names r.definitions := by
      simp [contains, Named.has_iff, or_comm]
    rw [checkKeys, on_bind, on_get, pure_bind]
    dsimp only
    by_cases hd : (r.contains d.key || seen.contains d.key) = true
    · rw [if_pos hd, firstTaken, if_pos (htaken.1 hd)]
      rfl
    · rw [if_neg hd, firstTaken, if_neg (mt htaken.2 hd), ← List.cons_append, ← ih (d.key :: seen)]

/-- Definitions are stored one after the other. -/
theorem on_storeAll {ε : Type} (r : Repository) (ds : List Definition) :
    (storeAll ds : InPlace ε Unit).on r = some (.ok (),
      { r with definitions := ds.foldl (fun stored d => Named.put d stored) r.definitions }) := by
  induction ds generalizing r with
  | nil => rfl
  | cons d ds ih =>
    rw [storeAll, on_bind, store, on_modify, pure_bind]
    exact ih _

/-- Definitions whose keys are all free go to the end. -/
theorem foldl_put_of_firstTaken {stored ds : List Definition}
    (h : firstTaken (Named.names stored) ds = none) :
    ds.foldl (fun stored d => Named.put d stored) stored = stored ++ ds := by
  induction ds generalizing stored with
  | nil => exact (List.append_nil stored).symm
  | cons d ds ih =>
    obtain ⟨hnodup, hfree⟩ := firstTaken_eq_none_iff.1 h
    obtain ⟨hd, hds⟩ := List.nodup_cons.1 hnodup
    have hput : Named.put d stored = stored ++ [d] :=
      Named.put_of_not_mem (hfree d.key List.mem_cons_self)
    have hrest : firstTaken (Named.names (stored ++ [d])) ds = none := by
      refine firstTaken_eq_none_iff.2 ⟨hds, fun key hkey hm => ?_⟩
      rw [Named.names, List.map_append, List.mem_append] at hm
      rcases hm with hstored | hlast
      · exact hfree key (List.mem_cons_of_mem _ hkey) hstored
      · exact hd (List.mem_singleton.1 hlast ▸ hkey)
    rw [List.foldl_cons, hput, ih hrest, List.append_assoc, List.singleton_append]

/-- Adding a definition scans for what follows from it, and stores all of it or nothing. -/
theorem on_addInPlace (r : Repository) (d : Definition) :
    (addInPlace d).on r = (Dialect.scan r.dialect.implied [d] 0).map fun found =>
      match firstTaken (Named.names r.definitions) found with
      | some key => (.error (.duplicate key), r)
      | none => (.ok (), { r with definitions := r.definitions ++ found }) := by
  rw [addInPlace, on_bind, on_get, pure_bind]
  dsimp only
  rw [on_bind, on_liftM]
  cases Dialect.scan r.dialect.implied [d] 0 with
  | none => rfl
  | some found =>
    show (checkKeys [] found >>= fun _ => storeAll found).on r = _
    rw [on_bind, on_checkKeys, Option.map_some]
    cases htaken : firstTaken (Named.names r.definitions) found with
    | some key => simp [htaken]
    | none => simp [htaken, on_storeAll, foldl_put_of_firstTaken htaken]

theorem on_addInPlace_of_clashes {r : Repository} {d : Definition} {found : List Definition}
    (hscan : Dialect.scan r.dialect.implied [d] 0 = some found) (h : r.Clashes found) :
    ∃ key, (addInPlace d).on r = some (.error (.duplicate key), r) ∧ r.FirstClash found key := by
  cases htaken : firstTaken (Named.names r.definitions) found with
  | none => exact absurd h (not_clashes_iff.2 htaken)
  | some key =>
    refine ⟨key, ?_, firstClash_of_firstTaken htaken⟩
    rw [on_addInPlace, hscan, Option.map_some]
    simp only [htaken]

theorem on_addInPlace_of_not_clashes {r : Repository} {d : Definition} {found : List Definition}
    (hscan : Dialect.scan r.dialect.implied [d] 0 = some found) (h : ¬r.Clashes found) :
    (addInPlace d).on r = some (.ok (), { r with definitions := r.definitions ++ found }) := by
  rw [on_addInPlace, hscan, Option.map_some]
  simp only [not_clashes_iff.1 h]

/-- In a finite dialect, adding in place does what adding does, and an error leaves the repository
as it was. -/
theorem on_addInPlace_of_isFinite {r : Repository} (h : r.dialect.IsFinite) (d : Definition) :
    (addInPlace d).on r = some (settled r ((r.add d).map fun r' => (r', ()))) := by
  rw [on_addInPlace, Dialect.scan_eq_closure h, Option.map_some, add]
  cases firstTaken (Named.names r.definitions) (r.dialect.closure d) <;> rfl

/-! ## Filling in place -/

/-- A step of filling as a program on a repository. -/
def runFilling : Filling → InPlace RepositoryError Unit
  | .add d => addInPlace d
  | .alter d => alterInPlace d
  | .declare name => declareInPlace name

/-- The repository has come out of a new one by some steps in place, those that have failed
included. -/
inductive Reached (dialect : Dialect) : Repository → Prop
  | start : Reached dialect (start dialect)
  | step {r r' : Repository} {f : Filling} {outcome : Except RepositoryError Unit}
    (h : Reached dialect r) (hstep : (runFilling f).on r = some (outcome, r')) :
    Reached dialect r'

/-- A step keeps the dialect, and keys stay distinct. -/
theorem runFilling_keeps {r r' : Repository} {f : Filling}
    {outcome : Except RepositoryError Unit} (h : (runFilling f).on r = some (outcome, r'))
    (hr : (Definition.keys r.definitions).Nodup) :
    r'.dialect = r.dialect ∧ (Definition.keys r'.definitions).Nodup := by
  cases f with
  | alter d =>
    cases h
    exact ⟨rfl, hr⟩
  | declare name =>
    cases h
    exact ⟨rfl, hr⟩
  | add d =>
    rw [runFilling, on_addInPlace, Option.map_eq_some_iff] at h
    obtain ⟨found, -, hstep⟩ := h
    split at hstep
    · cases hstep
      exact ⟨rfl, hr⟩
    · next htaken =>
      cases hstep
      obtain ⟨hfound, hfree⟩ := firstTaken_eq_none_iff.1 htaken
      refine ⟨rfl, ?_⟩
      rw [Definition.keys_append, List.nodup_append]
      exact ⟨hr, hfound, fun a ha b hb hab => hfree b hb (hab ▸ ha)⟩

theorem Reached.keeps {dialect : Dialect} {r : Repository} (h : r.Reached dialect) :
    r.dialect = dialect ∧ (Definition.keys r.definitions).Nodup := by
  induction h with
  | start => exact ⟨rfl, nodup_keys_start dialect⟩
  | step _ hstep ih =>
    obtain ⟨hdialect, hkeys⟩ := runFilling_keeps hstep ih.2
    exact ⟨hdialect.trans ih.1, hkeys⟩

/-- In a finite dialect a step in place leaves what the step makes of the repository. -/
theorem exists_on_runFilling {r : Repository} (h : r.dialect.IsFinite) (f : Filling) :
    ∃ outcome, (runFilling f).on r = some (outcome, r.fill f) := by
  cases f with
  | alter d => exact ⟨.ok (), rfl⟩
  | declare name => exact ⟨.ok (), rfl⟩
  | add d =>
    rw [runFilling, on_addInPlace_of_isFinite h, fill]
    cases r.add d with
    | ok r' => exact ⟨.ok (), rfl⟩
    | error e => exact ⟨.error e, rfl⟩

/-- In a finite dialect, steps in place lead where the steps lead. -/
theorem reached_iff_reachable {dialect : Dialect} (h : dialect.IsFinite) {r : Repository} :
    r.Reached dialect ↔ r.Reachable dialect := by
  constructor
  · intro hr
    induction hr with
    | start => exact ⟨[], rfl⟩
    | @step r r' f outcome hr hstep ih =>
      obtain ⟨outcome', hfill⟩ := exists_on_runFilling (hr.keeps.1 ▸ h) f
      rw [hstep, Option.some.injEq, Prod.mk.injEq] at hfill
      obtain ⟨steps, rfl⟩ := ih
      exact ⟨steps ++ [f], by rw [hfill.2, filled, filled, List.foldl_append]; rfl⟩
  · rintro ⟨steps, rfl⟩
    induction steps using List.reverseRecOn with
    | nil => exact .start
    | append_singleton steps f ih =>
      obtain ⟨outcome, hfill⟩ := exists_on_runFilling (ih.keeps.1 ▸ h) f
      rw [filled, List.foldl_append]
      exact .step ih hfill

/-- **Adding is all or nothing.** Take a dialect in which no definition implies others without end,
and a repository of it that has been filled in whatever way. Each definition is stored under its own
key. Adding another one comes to an end. It is about the definitions found from it, which are all that
follow from it, breadth first. If a key among them is stored or occurs twice, it fails with the first
such key, and then the repository is left as it was; otherwise they are stored in the order of
discovery behind what is there. -/
theorem add_allOrNothing {dialect : Dialect}
    (hends : ∀ d, ∃ n, Dialect.generation dialect.implied n [d] = []) {r : Repository}
    (hr : r.Reached dialect) (d : Definition) :
    (∀ x ∈ r.definitions, r.get? x.key = some x) ∧
      ∃ found, Dialect.Discovers dialect.implied [d] found ∧
        (∀ x, x ∈ found ↔ Relation.ReflTransGen (fun a b => b ∈ dialect.implied a) d x) ∧
        ((∃ key r', (addInPlace d).on r = some (.error (.duplicate key), r')) ↔ r.Clashes found) ∧
        (∀ e r', (addInPlace d).on r = some (.error e, r') → r' = r ∧
          ∃ key, e = .duplicate key ∧ r.FirstClash found key) ∧
        (¬r.Clashes found →
          (addInPlace d).on r =
              some (.ok (), { r with definitions := r.definitions ++ found }) ∧
            (Definition.keys (r.definitions ++ found)).Nodup) := by
  obtain ⟨rfl, hkeys⟩ := hr.keeps
  obtain ⟨found, hfound⟩ := Dialect.exists_discovers (hends d)
  have hscan := Dialect.scan_eq_some_iff.2 hfound
  -- Adding ends in one of two ways, and the clash decides which.
  have hclash : ∀ e r', (addInPlace d).on r = some (.error e, r') → r.Clashes found := by
    intro e r' he
    by_contra hfree
    rw [on_addInPlace_of_not_clashes hscan hfree] at he
    cases he
  refine ⟨fun x hx => (Named.get?_eq_some_iff hkeys).2 ⟨hx, rfl⟩, found, hfound, ?_, ?_, ?_, ?_⟩
  · intro x
    rw [hfound.mem_iff]
    simp
  · constructor
    · rintro ⟨key, r', he⟩
      exact hclash _ _ he
    · intro h
      obtain ⟨key, he, -⟩ := on_addInPlace_of_clashes hscan h
      exact ⟨key, r, he⟩
  · intro e r' he
    obtain ⟨key, hkey, hfirst⟩ := on_addInPlace_of_clashes hscan (hclash e r' he)
    rw [hkey, Option.some.injEq, Prod.mk.injEq, Except.error.injEq] at he
    exact ⟨he.2.symm, key, he.1.symm, hfirst⟩
  · intro hfree
    have hok := on_addInPlace_of_not_clashes hscan hfree
    exact ⟨hok, (runFilling_keeps (f := .add d) hok hkeys).2⟩

/-- A definition of an entity that has no fields. -/
def plain (entity key : String) : Definition := .empty ⟨entity, [], false⟩ key none

/-- Each crate implies two boxes, and each box a label. -/
def packing : Dialect :=
  .ofTemplates .empty
    [("Crate", [plain "Box" "\x7b\x7dLeft", plain "Box" "\x7b\x7dRight"]),
      ("Box", [plain "Label" "\x7b\x7dLabel"])]

theorem isFinite_packing : packing.IsFinite := by
  intro d
  show (([d].flatMap packing.implied).flatMap packing.implied).flatMap packing.implied = []
  have himplied : ∀ a : Definition, packing.implied a =
      if a.entity.name = "Crate" then
        [plain "Box" (a.key ++ "Left"), plain "Box" (a.key ++ "Right")]
      else if a.entity.name = "Box" then [plain "Label" (a.key ++ "Label")] else [] := by
    intro a
    by_cases hcrate : a.entity.name = "Crate"
    · simp [packing, Dialect.ofTemplates, Named.value?, Named.get?, hcrate, plain, Dialect.fill,
        Definition.empty, Dialect.fillBraces]
    · by_cases hbox : a.entity.name = "Box"
      · simp [packing, Dialect.ofTemplates, Named.value?, Named.get?, hbox, plain, Dialect.fill,
          Definition.empty, Dialect.fillBraces]
      · simp [packing, Dialect.ofTemplates, Named.value?, Named.get?, hcrate, hbox,
          Ne.symm hcrate, Ne.symm hbox]
  rw [List.flatMap_singleton, himplied d]
  split
  · simp [himplied, plain, Definition.empty]
  · split <;> simp [himplied, plain, Definition.empty]

/-- A crate with its boxes and labels, a second one that is refused, and a box of another crate. -/
def storage : List Filling :=
  [.add (plain "Crate" "Tea"), .alter (plain "Crate" "Tea"), .add (plain "Crate" "Tea"),
    .declare "Rice", .add (plain "Box" "SaltRight")]

theorem add_allOrNothing_packing :
    ∃ r, r = filled packing storage ∧
      (∀ d, ∃ n, Dialect.generation packing.implied n [d] = []) ∧ r.Reached packing ∧
      Definition.keys r.definitions =
        ["Tea", "TeaLeft", "TeaRight", "TeaLeftLabel", "TeaRightLabel", "SaltRight",
          "SaltRightLabel"] ∧
      (∃ found, Definition.keys found =
          ["Rice", "RiceLeft", "RiceRight", "RiceLeftLabel", "RiceRightLabel"] ∧
        (addInPlace (plain "Crate" "Rice")).on r =
          some (.ok (), { r with definitions := r.definitions ++ found })) ∧
      ∃ key, (addInPlace (plain "Crate" "Salt")).on r = some (.error (.duplicate key), r) := by
  have hends : ∀ d, ∃ n, Dialect.generation packing.implied n [d] = [] := fun d =>
    ⟨_, isFinite_packing d⟩
  have hr : (filled packing storage).Reached packing :=
    (reached_iff_reachable isFinite_packing).2 ⟨storage, rfl⟩
  obtain ⟨-, rice, hrice, -, -, -, hstored⟩ := add_allOrNothing hends hr (plain "Crate" "Rice")
  obtain ⟨-, salt, hsalt, -, hiff, herror, -⟩ := add_allOrNothing hends hr (plain "Crate" "Salt")
  obtain rfl := hrice.unique (Dialect.discovers_closure isFinite_packing _)
  obtain rfl := hsalt.unique (Dialect.discovers_closure isFinite_packing _)
  have hfree : ¬(filled packing storage).Clashes (packing.closure (plain "Crate" "Rice")) :=
    not_clashes_iff.2 (by decide +kernel)
  have htaken : firstTaken (Named.names (filled packing storage).definitions)
      (packing.closure (plain "Crate" "Salt")) = some "SaltRight" := by
    decide +kernel
  obtain ⟨key, r', hkey⟩ := hiff.2 (clashes_of_firstTaken htaken)
  obtain ⟨rfl, -⟩ := herror _ _ hkey
  exact ⟨_, rfl, hends, hr, by decide +kernel, ⟨_, by decide +kernel, (hstored hfree).1⟩, key, hkey⟩

end Repository

end Metamodel
