import Metamodel.Proofs.Discovery
import Metamodel.Proofs.StatementFaults

set_option autoImplicit false

/-! # What is left of a failed load

A text is parsed as a whole before any statement of it has an effect; then the statements are
applied one after the other. A statement has the effect of one step of filling, or none: it is
refused for its first fault, or because the definition it creates, or one that this implies, has a
key that is taken (`Repository.applyStatement_eq_ok_iff`, `Repository.applyStatement_eq_error_iff`).

What some steps make of a repository that accepts them is said all at once (`extendedBy`): which
definitions are stored, which alterations are queued and which names are declared, in the order of
the steps. So a load that fails leaves what the statements before the failing one amount to, nothing
of that one, and the list of sources as it was (`Project.load_exact`). -/

namespace Metamodel

namespace Repository

/-! ## The first key that is taken -/

theorem firstTaken_append_of_none {taken : List String} {ds : List Definition}
    (h : firstTaken taken ds = none) (more : List Definition) :
    firstTaken taken (ds ++ more) = firstTaken ((Definition.keys ds).reverse ++ taken) more := by
  induction ds generalizing taken with
  | nil => rfl
  | cons d ds ih =>
    rw [firstTaken] at h
    split at h
    · cases h
    · next hd =>
      rw [List.cons_append, firstTaken, if_neg hd, ih h]
      simp [Named.names, Named.nameOf]

/-- The clash that is reported is the first one, and each first one is reported. -/
theorem firstTaken_eq_some_iff {r : Repository} {ds : List Definition} {key : String} :
    firstTaken (Named.names r.definitions) ds = some key ↔ r.FirstClash ds key := by
  constructor
  · exact firstClash_of_firstTaken
  · rintro ⟨before, x, after, rfl, rfl, hfree, hclash⟩
    have happend := firstTaken_append_of_none (not_clashes_iff.1 hfree)
    -- What clashes with `x` behind the others is `x` itself.
    have hx : x.key ∈ (Definition.keys before).reverse ++ Named.names r.definitions := by
      by_contra hx
      refine not_clashes_iff.2 ?_ hclash
      rw [happend [x], firstTaken, if_neg hx, firstTaken]
    rw [happend (x :: after), firstTaken, if_pos hx]

theorem add_eq_ok_iff {r r' : Repository} {d : Definition} :
    r.add d = .ok r' ↔ ¬r.Clashes (r.dialect.closure d) ∧
      r' = { r with definitions := r.definitions ++ r.dialect.closure d } := by
  rw [not_clashes_iff, add]
  cases firstTaken (Named.names r.definitions) (r.dialect.closure d) <;> simp [eq_comm]

theorem add_eq_error_iff {r : Repository} {d : Definition} {e : RepositoryError} :
    r.add d = .error e ↔ ∃ key, r.FirstClash (r.dialect.closure d) key ∧ e = .duplicate key := by
  simp only [← firstTaken_eq_some_iff, add]
  cases firstTaken (Named.names r.definitions) (r.dialect.closure d) <;> simp [eq_comm]

/-- Definitions clash with those before them as with those that are stored. -/
theorem not_clashes_append {r r' : Repository} {ds more : List Definition}
    (h : r'.definitions = r.definitions ++ ds) :
    ¬r.Clashes (ds ++ more) ↔ ¬r.Clashes ds ∧ ¬r'.Clashes more := by
  simp only [not_clashes_iff, firstTaken_eq_none_iff, h, Definition.keys_append,
    List.nodup_append, List.mem_append]
  grind

/-! ## What some steps amount to -/

/-- The repository with all that the steps add, queue and declare behind what is there, in the order
of the steps. Each definition that is added is followed by those it implies, and a name that is there
stays where it is. -/
def extendedBy (r : Repository) (steps : List Filling) : Repository :=
  { r with
    definitions := r.definitions ++ (steps.filterMap Filling.added?).flatMap r.dialect.closure
    alterations := r.alterations ++ steps.filterMap Filling.queued?
    declared := (steps.filterMap Filling.declared?).foldl addName r.declared }

/-- No definition that the steps add, or that is implied by one, has a key that is stored or that
another one of them has. -/
def Accepts (r : Repository) (steps : List Filling) : Prop :=
  ¬r.Clashes ((steps.filterMap Filling.added?).flatMap r.dialect.closure)

@[simp] theorem dialect_extendedBy (r : Repository) (steps : List Filling) :
    (r.extendedBy steps).dialect = r.dialect := rfl

theorem extendedBy_nil (r : Repository) : r.extendedBy [] = r := by
  simp [extendedBy]

theorem extendedBy_append (r : Repository) (steps more : List Filling) :
    r.extendedBy (steps ++ more) = (r.extendedBy steps).extendedBy more := by
  simp [extendedBy]

theorem accepts_nil (r : Repository) : r.Accepts [] := by
  simp [Accepts, Clashes, Named.names]

theorem accepts_append {r : Repository} {steps more : List Filling} :
    r.Accepts (steps ++ more) ↔ r.Accepts steps ∧ (r.extendedBy steps).Accepts more := by
  rw [Accepts, List.filterMap_append, List.flatMap_append]
  exact not_clashes_append rfl

/-- The repository after a step, unless it is refused. -/
def take (r : Repository) : Filling → Except RepositoryError Repository
  | .add d => r.add d
  | .alter d => .ok (r.alter d)
  | .declare name => .ok (r.declare name)

theorem take_eq_ok_iff {r r' : Repository} {f : Filling} :
    r.take f = .ok r' ↔ r.Accepts [f] ∧ r' = r.extendedBy [f] := by
  cases f with
  | add d =>
    simp [take, add_eq_ok_iff, Accepts, extendedBy, List.filterMap_cons, Filling.added?,
      Filling.queued?, Filling.declared?]
  | alter d =>
    have haccepts : r.Accepts [.alter d] := r.accepts_nil
    simp [take, alter, haccepts, extendedBy, List.filterMap_cons, Filling.added?, Filling.queued?,
      Filling.declared?, eq_comm]
  | declare name =>
    have haccepts : r.Accepts [.declare name] := r.accepts_nil
    simp [take, declare, haccepts, extendedBy, List.filterMap_cons, Filling.added?,
      Filling.queued?, Filling.declared?, eq_comm]

theorem take_eq_error_iff {r : Repository} {f : Filling} {e : RepositoryError} :
    r.take f = .error e ↔
      ∃ d key, f = .add d ∧ r.FirstClash (r.dialect.closure d) key ∧ e = .duplicate key := by
  cases f <;> simp [take, add_eq_error_iff]

end Repository

/-! ## The effect of a statement -/

/-- The step of filling that a statement stands for, given the definition that it describes. -/
def Statement.filling (s : Statement) (d : Definition) : Filling :=
  match s.verb with
  | .create => .add d
  | .alter => .alter d
  | .declare => .declare s.name.value

namespace Repository

/-- In repositories of the dialect of this one, a statement stands for the step. -/
def StandsFor (r : Repository) (source : String) (s : Statement) (f : Filling) : Prop :=
  ∃ d, r.definitionOf source s = .ok d ∧ f = s.filling d

/-- Why a statement is refused: it has a fault, of which the first is reported, or it creates a
definition that has a key that is taken, or implies one that has, of which the first is reported. -/
inductive Refuses (r : Repository) (source : String) (s : Statement) : ModelError → Prop
  | fault {e : SourceError} (h : (s.faults r.dialect.grammar source).head? = some e) :
    Refuses r source s (.source e)
  | duplicate {d : Definition} {key : String} (hstep : r.StandsFor source s (.add d))
    (hclash : r.FirstClash (r.dialect.closure d) key) :
    Refuses r source s (.repository (.duplicate key))

section Statements

variable {r r' : Repository} {source : String}

/-- The step a statement stands for is the same in all repositories of one dialect. -/
theorem standsFor_congr (hd : r'.dialect = r.dialect) (source : String) :
    r'.StandsFor source = r.StandsFor source := by
  funext s f
  rw [StandsFor, StandsFor, definitionOf_congr hd]

/-- A statement stands for a step exactly if it has no fault. -/
theorem exists_standsFor_iff {s : Statement} :
    (∃ f, r.StandsFor source s f) ↔ s.faults r.dialect.grammar source = [] := by
  rw [← (reports_definitionOf r source s).exists_eq_ok_iff]
  simp [StandsFor]

theorem applyStatement_eq (r : Repository) (source : String) (s : Statement) :
    r.applyStatement source s = (do
      let d ← (r.definitionOf source s).mapError .source
      (r.take (s.filling d)).mapError .repository) := by
  unfold applyStatement Statement.filling
  cases s.verb <;> rfl

theorem applyStatement_eq_ok_iff {s : Statement} :
    r.applyStatement source s = .ok r' ↔
      ∃ f, r.StandsFor source s f ∧ r.Accepts [f] ∧ r' = r.extendedBy [f] := by
  simp [applyStatement_eq, take_eq_ok_iff, StandsFor]

theorem applyStatement_eq_error_iff {s : Statement} {e : ModelError} :
    r.applyStatement source s = .error e ↔ r.Refuses source s e := by
  simp only [applyStatement_eq, bind_eq_error, mapError_eq_error, mapError_eq_ok,
    take_eq_error_iff, (reports_definitionOf r source s).eq_error_iff]
  constructor
  · rintro (⟨e, h, rfl⟩ | ⟨d, hd, _, ⟨a, key, hstep, hclash, rfl⟩, rfl⟩)
    · exact .fault h
    · exact .duplicate ⟨d, hd, hstep.symm⟩ hclash
  · rintro (h | ⟨⟨d, hd, hstep⟩, hclash⟩)
    · exact .inl ⟨_, h, rfl⟩
    · exact .inr ⟨d, hd, _, ⟨_, _, hstep.symm, hclash, rfl⟩, rfl⟩

/-! ## The effect of a list of statements -/

/-- Statements that are all applied amount to the steps they stand for. -/
theorem applyAll_eq_ok_iff {ss : List Statement} :
    applyAll source r ss = (r', .ok ()) ↔
      ∃ steps, List.Forall₂ (r.StandsFor source) ss steps ∧ r.Accepts steps ∧
        r' = r.extendedBy steps := by
  induction ss generalizing r with
  | nil => simp [applyAll, accepts_nil, extendedBy_nil, eq_comm]
  | cons s ss ih =>
    -- The rest is applied to another repository of the dialect, so it stands for the same steps.
    have hsteps : ∀ f, (r.extendedBy [f]).StandsFor source = r.StandsFor source := fun f =>
      standsFor_congr (r.dialect_extendedBy [f]) source
    rw [applyAll]
    constructor
    · intro h
      split at h
      · next q hq =>
        obtain ⟨f, hf, hfree, rfl⟩ := applyStatement_eq_ok_iff.1 hq
        obtain ⟨steps, hss, hmore, rfl⟩ := ih.1 h
        rw [hsteps] at hss
        exact ⟨f :: steps, .cons hf hss, accepts_append.2 ⟨hfree, hmore⟩,
          (r.extendedBy_append [f] steps).symm⟩
      · cases h
    · rintro ⟨_, hss, haccepts, rfl⟩
      cases hss with
      | @cons _ f _ steps hf hss =>
        have hall : r.Accepts ([f] ++ steps) := haccepts
        obtain ⟨hfree, hmore⟩ := accepts_append.1 hall
        rw [applyStatement_eq_ok_iff.2 ⟨f, hf, hfree, rfl⟩]
        exact ih.2 ⟨steps, hsteps f ▸ hss, hmore, r.extendedBy_append [f] steps⟩

/-- A list of statements stops at one that is refused. -/
theorem applyAll_eq_error_iff {ss : List Statement} {e : ModelError} :
    applyAll source r ss = (r', .error e) ↔
      ∃ before s after, ss = before ++ s :: after ∧ applyAll source r before = (r', .ok ()) ∧
        r'.Refuses source s e := by
  induction ss generalizing r with
  | nil => simp [applyAll]
  | cons s ss ih =>
    constructor
    · intro h
      rw [applyAll] at h
      split at h
      · next q hq =>
        obtain ⟨before, s', after, rfl, hbefore, hs'⟩ := ih.1 h
        exact ⟨s :: before, s', after, rfl, by rw [applyAll, hq]; exact hbefore, hs'⟩
      · next e' he =>
        cases h
        exact ⟨[], s, ss, rfl, rfl, applyStatement_eq_error_iff.1 he⟩
    · rintro ⟨before, s', after, hsplit, hbefore, hs'⟩
      cases before with
      | nil =>
        cases hsplit
        cases hbefore
        rw [applyAll, applyStatement_eq_error_iff.2 hs']
      | cons _ before =>
        cases hsplit
        rw [applyAll] at hbefore ⊢
        split at hbefore
        · next q hq => exact ih.2 ⟨before, s', after, rfl, hbefore, hs'⟩
        · cases hbefore

end Statements

/-! ## Loading in place -/

section InPlace

open Metamodel.InPlace

variable {r : Repository} (hfinite : r.dialect.IsFinite) (source : String)
include hfinite

/-- A statement that fails in place leaves the repository as it was. -/
theorem on_applyInPlace (s : Statement) :
    (applyInPlace source s).on r =
      some (settled r ((r.applyStatement source s).map fun r' => (r', ()))) := by
  rw [applyInPlace, on_bind, on_read, pure_bind, applyStatement]
  cases r.definitionOf source s with
  | error e => rfl
  | ok d =>
    simp only [Except.mapError, ok_bind]
    cases s.verb with
    | alter => rfl
    | declare => rfl
    | create =>
      dsimp only
      rw [on_adapt, on_addInPlace_of_isFinite hfinite]
      cases r.add d <;> rfl

theorem on_applyAllInPlace (ss : List Statement) :
    (applyAllInPlace source ss).on r = some (applyAll source r ss).swap := by
  induction ss generalizing r with
  | nil => rfl
  | cons s ss ih =>
    rw [applyAllInPlace, on_bind, on_applyInPlace hfinite, applyAll]
    cases hs : r.applyStatement source s with
    | error e => rfl
    | ok r' =>
      obtain ⟨f, -, -, rfl⟩ := applyStatement_eq_ok_iff.1 hs
      exact ih (r := r.extendedBy [f]) hfinite

theorem on_loadInPlace (text : String) :
    (loadInPlace source text).on r = some (r.load source text).swap := by
  unfold loadInPlace load
  cases Statement.parse text with
  | error e => rfl
  | ok ss => exact on_applyAllInPlace hfinite source ss

end InPlace

end Repository

/-! ## The effect of a source -/

namespace Project

/-- What loading a source makes of a project, and how it ends. -/
inductive Loading (p : Project) (source text : String) :
    Project → Except ModelError Unit → Prop
  /-- A text that cannot be parsed changes nothing. -/
  | unreadable {e : SyntaxError} (hparse : Statement.parse text = .error e) :
    Loading p source text p (.error (.source (.syntaxError source e)))
  /-- A statement that is refused leaves what the statements before it amount to. -/
  | stopped {before after : List Statement} {s : Statement} {steps : List Filling} {e : ModelError}
    (hparse : Statement.parse text = .ok (before ++ s :: after))
    (hbefore : List.Forall₂ (p.repository.StandsFor source) before steps)
    (haccepts : p.repository.Accepts steps)
    (hrefuses : (p.repository.extendedBy steps).Refuses source s e) :
    Loading p source text ⟨p.repository.extendedBy steps, p.sources⟩ (.error e)
  /-- If no statement is refused, all have their effect and the source counts as loaded. -/
  | complete {ss : List Statement} {steps : List Filling}
    (hparse : Statement.parse text = .ok ss)
    (hsteps : List.Forall₂ (p.repository.StandsFor source) ss steps)
    (haccepts : p.repository.Accepts steps) :
    Loading p source text ⟨p.repository.extendedBy steps, p.sources ++ [source]⟩ (.ok ())

theorem load_of_parse_error {p : Project} {source text : String} {e : SyntaxError}
    (h : Statement.parse text = .error e) :
    p.load source text = (p, .error (.source (.syntaxError source e))) := by
  rw [load, Repository.load, h]

theorem load_of_applyAll_ok {p : Project} {source text : String} {ss : List Statement}
    {r : Repository} (hparse : Statement.parse text = .ok ss)
    (hall : Repository.applyAll source p.repository ss = (r, .ok ())) :
    p.load source text = (⟨r, p.sources ++ [source]⟩, .ok ()) := by
  simp only [load, Repository.load, hparse, hall]

theorem load_of_applyAll_error {p : Project} {source text : String} {ss : List Statement}
    {r : Repository} {e : ModelError} (hparse : Statement.parse text = .ok ss)
    (hall : Repository.applyAll source p.repository ss = (r, .error e)) :
    p.load source text = (⟨r, p.sources⟩, .error e) := by
  simp only [load, Repository.load, hparse, hall]

/-- In a finite dialect, loading in place leaves the project that loading gives. -/
theorem on_loadInPlace {p : Project} (hfinite : p.repository.dialect.IsFinite)
    (source text : String) :
    (loadInPlace source text).on p = some (p.load source text).swap := by
  rw [loadInPlace, InPlace.on_bind, InPlace.on_within, Repository.on_loadInPlace hfinite, load]
  rcases p.repository.load source text with ⟨r, _ | _⟩ <;> rfl

theorem load_eq_iff (p : Project) (source text : String) (q : Project)
    (outcome : Except ModelError Unit) :
    p.load source text = (q, outcome) ↔ Loading p source text q outcome := by
  constructor
  · intro h
    cases hparse : Statement.parse text with
    | error e =>
      rw [load_of_parse_error hparse] at h
      cases h
      exact .unreadable hparse
    | ok ss =>
      cases hall : Repository.applyAll source p.repository ss with
      | mk r result =>
        cases result with
        | ok u =>
          rw [load_of_applyAll_ok hparse hall] at h
          cases h
          obtain ⟨steps, hsteps, haccepts, rfl⟩ := Repository.applyAll_eq_ok_iff.1 hall
          exact .complete hparse hsteps haccepts
        | error e =>
          rw [load_of_applyAll_error hparse hall] at h
          cases h
          obtain ⟨before, s, after, rfl, hbefore, hs⟩ := Repository.applyAll_eq_error_iff.1 hall
          obtain ⟨steps, hsteps, haccepts, rfl⟩ := Repository.applyAll_eq_ok_iff.1 hbefore
          exact .stopped hparse hsteps haccepts hs
  · intro h
    cases h with
    | unreadable hparse => exact load_of_parse_error hparse
    | stopped hparse hbefore haccepts hrefuses =>
      have hprefix := Repository.applyAll_eq_ok_iff.2 ⟨_, hbefore, haccepts, rfl⟩
      exact load_of_applyAll_error hparse
        (Repository.applyAll_eq_error_iff.2 ⟨_, _, _, rfl, hprefix, hrefuses⟩)
    | complete hparse hsteps haccepts =>
      exact load_of_applyAll_ok hparse
        (Repository.applyAll_eq_ok_iff.2 ⟨_, hsteps, haccepts, rfl⟩)

/-- **A failed load leaves exactly a prefix.** Whatever the state of a project and whatever the
text: if the text cannot be parsed, the project stays as it is; if a statement is refused, for a
fault of it or for a key that is taken, the repository is extended by the steps of the statements
before it and by nothing else, and the sources stay as they are; otherwise the repository is
extended by the steps of all statements, and the source is put behind the others. Where definitions
do not imply others without end, this is the state that loading in place comes to, whether it fails
or not. -/
theorem load_exact (p : Project) (source text : String) (q : Project)
    (outcome : Except ModelError Unit) :
    (p.load source text = (q, outcome) ↔ Loading p source text q outcome) ∧
      (p.repository.dialect.IsFinite →
        ((loadInPlace source text).on p = some (outcome, q) ↔ Loading p source text q outcome)) := by
  refine ⟨load_eq_iff p source text q outcome, fun hfinite => ?_⟩
  rw [← load_eq_iff, on_loadInPlace hfinite, Option.some.injEq, Prod.swap_eq_iff_eq_swap]
  rfl

open Source

/-- A plate with a field, an alteration, a declared name, and a dish with a field that sets what no
field has. The second plate behind it would be refused as well. -/
def crockery : String :=
  ofPieces [
    definition "Plate" [block "id" "plaId" [text "label" "Id"]],
    block "alter Domain" "DoPlate" [],
    declared "DoColour",
    definition "Dish" [block "id" "disId" [text "label" "Id", text "colour" "Red"]],
    definition "Plate" []]

theorem load_exact_crockery :
    ∃ q e, Loading (start .standard) "table" crockery q (.error e) ∧
      (start .standard).repository.dialect.IsFinite ∧
      (loadInPlace "table" crockery).on (start .standard) = some (.error e, q) ∧
      Definition.keys q.repository.definitions =
        Definition.keys (start .standard).repository.definitions ++ ["Plate", "DoPlate"] ∧
      Definition.keys q.repository.alterations = ["DoPlate"] ∧
      q.repository.declared = ["DoColour"] ∧ q.sources = [] ∧
      e.message = "IdField has no field \"colour\"" := by
  have htext : Statement.parse crockery = _ := Statement.parse_ofList _
  have hfinite : (start .standard).repository.dialect.IsFinite := Dialect.isFinite_ofGrammar _
  cases hload : (start .standard).load "table" crockery with
  | mk q outcome =>
    have hview : (Definition.keys q.repository.definitions,
        Definition.keys q.repository.alterations, q.repository.declared, q.sources,
        outcome.mapError ModelError.message) =
          (Definition.keys (start .standard).repository.definitions ++ ["Plate", "DoPlate"],
            ["DoPlate"], ["DoColour"], [], .error "IdField has no field \"colour\"") := by
      have hq : q = ((start .standard).load "table" crockery).1 := by rw [hload]
      have houtcome : outcome = ((start .standard).load "table" crockery).2 := by rw [hload]
      rw [hq, houtcome, load, Repository.load, htext]
      decide +kernel
    simp only [Prod.mk.injEq] at hview
    obtain ⟨hdefinitions, halterations, hdeclared, hsources, houtcome⟩ := hview
    obtain ⟨e, rfl, hmessage⟩ := mapError_eq_error.1 houtcome
    obtain ⟨hloading, hinPlace⟩ := load_exact (start .standard) "table" crockery q (.error e)
    have hstopped := hloading.1 hload
    exact ⟨q, e, hstopped, hfinite, (hinPlace hfinite).2 hstopped, hdefinitions, halterations,
      hdeclared, hsources, hmessage⟩

end Project

end Metamodel
