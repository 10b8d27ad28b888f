import Metamodel.Proofs.Loading

set_option autoImplicit false

/-! # Filling repositories

A repository is filled step by step: definitions are added, alterations are queued and names are
declared, in any order. `Repository.filled` is what a sequence of such steps makes of a new
repository. A definition with a key that is taken is refused and leaves everything as it was, so
failures are part of a sequence. Loading a text is filling with definitions of the grammar
(`exists_foldl_fill_of_load`), and so is loading one text after the other, whether they fail or not
(`loadEach`): whatever sources a project has been given, its repository is `Reachable`.

The definitions, the queue and the declared names do not depend on how the steps are interleaved:
each follows from the steps of its own sort (`definitions_filled`, `alterations_filled`,
`isDeclared_filled`). `SameContents` compares repositories that have been filled in different
orders, and `sameContents_filled` says which steps lead to such repositories. -/

namespace Metamodel

/-- One step of filling a repository. -/
inductive Filling
  | add (d : Definition)
  | alter (d : Definition)
  | declare (name : String)

namespace Filling

/-- The definition that a step adds. -/
def added? : Filling → Option Definition
  | .add d => some d
  | _ => none

/-- The alteration that a step queues. -/
def queued? : Filling → Option Definition
  | .alter d => some d
  | _ => none

/-- The name that a step declares. -/
def declared? : Filling → Option String
  | .declare name => some name
  | _ => none

/-- What the step adds, if anything, is of an entity of the grammar. -/
def OfGrammar (grammar : Grammar) (f : Filling) : Prop :=
  ∀ d, f.added? = some d → d.entity ∈ grammar.entities

end Filling

namespace Dialect

/-- With a definition of the standard dialect comes at most its implicit domain. -/
theorem mem_closure_standard {a d : Definition} :
    d ∈ standard.closure a ↔ d = a ∨ d ∈ impliedDomains a := by
  simp [closure, standard, ofGrammar, descendants]

theorem mem_impliedDomains {a d : Definition} :
    d ∈ impliedDomains a ↔
      (EntityKind.ofName? a.entity.name = some .entityDefinition ∨
        EntityKind.ofName? a.entity.name = some .fragment) ∧ d = implicitDomain a := by
  rw [impliedDomains]
  split <;> simp_all

end Dialect

namespace Repository

/-- The repository after a step. A definition with a key that is taken is refused. -/
def fill (r : Repository) : Filling → Repository
  | .add d => match r.add d with
    | .ok r' => r'
    | .error _ => r
  | .alter d => r.alter d
  | .declare name => r.declare name

/-- What some steps make of a new repository. -/
def filled (dialect : Dialect) (steps : List Filling) : Repository :=
  steps.foldl fill (start dialect)

/-- Some steps lead from a new repository to this one. -/
def Reachable (dialect : Dialect) (r : Repository) : Prop := ∃ steps, r = filled dialect steps

/-! ## Distinct keys -/

/-- A step adds definitions and alterations behind those that are there, or none. -/
theorem fill_extends (r : Repository) (f : Filling) :
    ∃ ds changes, r.Extends (r.fill f) ds changes := by
  cases f with
  | add d =>
    cases h : r.add d with
    | ok r' => exact ⟨_, _, by simpa [fill, h] using extends_of_add h⟩
    | error e => exact ⟨[], [], by simpa [fill, h] using Extends.refl r⟩
  | alter d => exact ⟨[], [d], .of_eq rfl rfl rfl⟩
  | declare name => exact ⟨[], [], .of_eq rfl rfl (List.append_nil _).symm⟩

theorem foldl_fill_extends (steps : List Filling) (r : Repository) :
    ∃ ds changes, r.Extends (steps.foldl fill r) ds changes := by
  induction steps generalizing r with
  | nil => exact ⟨[], [], .refl r⟩
  | cons f steps ih =>
    obtain ⟨ds, changes, h⟩ := fill_extends r f
    obtain ⟨ds', changes', h'⟩ := ih (r.fill f)
    exact ⟨_, _, h.trans h'⟩

/-- However a repository has been filled, its keys are distinct. -/
theorem nodup_keys_filled (dialect : Dialect) (steps : List Filling) :
    (Definition.keys (filled dialect steps).definitions).Nodup := by
  obtain ⟨ds, changes, h⟩ := foldl_fill_extends steps (start dialect)
  exact h.nodup (nodup_keys_start dialect)

theorem Reachable.nodup_keys {dialect : Dialect} {r : Repository} (h : r.Reachable dialect) :
    (Definition.keys r.definitions).Nodup := by
  obtain ⟨steps, rfl⟩ := h
  exact nodup_keys_filled dialect steps

/-! ## What is stored, queued and declared -/

/-- Some definitions and one more with all that it implies, if the keys are free. -/
def withAdded (dialect : Dialect) (ds : List Definition) (d : Definition) : List Definition :=
  match firstTaken (Named.names ds) (dialect.closure d) with
  | some _ => ds
  | none => ds ++ dialect.closure d

theorem definitions_fill_add (r : Repository) (d : Definition) :
    (r.fill (.add d)).definitions = withAdded r.dialect r.definitions d := by
  simp only [fill, add, withAdded]
  cases firstTaken (Named.names r.definitions) (r.dialect.closure d) <;> rfl

@[simp] theorem dialect_fill (r : Repository) (f : Filling) : (r.fill f).dialect = r.dialect := by
  obtain ⟨_, _, h⟩ := fill_extends r f
  exact h.dialect

theorem alterations_fill (r : Repository) (f : Filling) :
    (r.fill f).alterations = r.alterations ++ f.queued?.toList := by
  cases f with
  | add d =>
    simp only [fill, add, Filling.queued?, Option.toList_none, List.append_nil]
    cases firstTaken (Named.names r.definitions) (r.dialect.closure d) <;> rfl
  | alter d => rfl
  | declare name => exact (List.append_nil _).symm

theorem mem_declared_fill {r : Repository} {f : Filling} {name : String} :
    name ∈ (r.fill f).declared ↔ f.declared? = some name ∨ name ∈ r.declared := by
  cases f with
  | add d =>
    simp only [fill, add, Filling.declared?, reduceCtorEq, false_or]
    cases firstTaken (Named.names r.definitions) (r.dialect.closure d) <;> rfl
  | alter d => simp [fill, alter, Filling.declared?]
  | declare n => simp [fill, declare, mem_addName, Filling.declared?, eq_comm]

theorem definitions_foldl_fill (steps : List Filling) (r : Repository) :
    (steps.foldl fill r).definitions =
      (steps.filterMap Filling.added?).foldl (withAdded r.dialect) r.definitions := by
  induction steps generalizing r with
  | nil => rfl
  | cons f steps ih =>
    rw [List.foldl_cons, ih, dialect_fill]
    cases f with
    | add d => rw [definitions_fill_add]; rfl
    | alter d => rfl
    | declare name => rfl

theorem alterations_foldl_fill (steps : List Filling) (r : Repository) :
    (steps.foldl fill r).alterations = r.alterations ++ steps.filterMap Filling.queued? := by
  induction steps generalizing r with
  | nil => exact (List.append_nil _).symm
  | cons f steps ih =>
    rw [List.foldl_cons, ih, alterations_fill, List.append_assoc, List.filterMap_cons]
    cases f.queued? <;> rfl

theorem mem_declared_foldl_fill {steps : List Filling} {r : Repository} {name : String} :
    name ∈ (steps.foldl fill r).declared ↔
      name ∈ steps.filterMap Filling.declared? ∨ name ∈ r.declared := by
  induction steps generalizing r with
  | nil => simp
  | cons f steps ih =>
    rw [List.foldl_cons, ih, mem_declared_fill, List.filterMap_cons]
    cases f.declared? with
    | none => simp
    | some n => simp only [Option.some.injEq, List.mem_cons, eq_comm (a := name)]; tauto

/-- The definitions are those that the steps add, one after the other, to the roots. -/
theorem definitions_filled (dialect : Dialect) (steps : List Filling) :
    (filled dialect steps).definitions =
      (steps.filterMap Filling.added?).foldl (withAdded dialect) (start dialect).definitions :=
  definitions_foldl_fill steps (start dialect)

/-- The queue holds what the steps have queued. -/
theorem alterations_filled (dialect : Dialect) (steps : List Filling) :
    (filled dialect steps).alterations = steps.filterMap Filling.queued? :=
  alterations_foldl_fill steps (start dialect)

theorem isDeclared_filled {dialect : Dialect} {steps : List Filling} {name : String} :
    (filled dialect steps).isDeclared name = true ↔ name ∈ steps.filterMap Filling.declared? := by
  rw [isDeclared, List.contains_iff_mem, filled, mem_declared_foldl_fill]
  simp [start]

theorem mem_foldl_withAdded {dialect : Dialect} {ds : List Definition} {d : Definition}
    (h : d ∈ ds) (added : List Definition) : d ∈ added.foldl (withAdded dialect) ds := by
  induction added generalizing ds with
  | nil => exact h
  | cons a added ih =>
    refine ih ?_
    unfold withAdded
    split
    · exact h
    · exact List.mem_append_left _ h

/-- What is stored was there from the start, or an added definition or something it implies; and
then all that comes with it is stored. -/
theorem mem_definitions_filled {dialect : Dialect} {steps : List Filling} {d : Definition}
    (h : d ∈ (filled dialect steps).definitions) :
    d ∈ (start dialect).definitions ∨
      ∃ a ∈ steps.filterMap Filling.added?, d ∈ dialect.closure a ∧
        ∀ x ∈ dialect.closure a, x ∈ (filled dialect steps).definitions := by
  rw [definitions_filled] at h ⊢
  generalize (start dialect).definitions = ds at h ⊢
  generalize steps.filterMap Filling.added? = added at h ⊢
  induction added generalizing ds with
  | nil => exact .inl h
  | cons a added ih =>
    rcases ih (withAdded dialect ds a) h with hstored | ⟨a', ha', hd, hall⟩
    · by_cases hds : d ∈ ds
      · exact .inl hds
      · right
        rw [List.foldl_cons]
        unfold withAdded at hstored ⊢
        split at hstored
        · exact absurd hstored hds
        · have hclosure := (List.mem_append.1 hstored).resolve_left hds
          exact ⟨a, List.mem_cons_self, hclosure, fun x hx =>
            mem_foldl_withAdded (List.mem_append_right _ hx) added⟩
    · exact .inr ⟨a', List.mem_cons_of_mem a ha', hd, hall⟩

/-! ## Loading is filling -/

section Entities

variable (r : Repository) (source : String)

mutual

/-- Entries do not change the entity. -/
theorem entity_addEntry {d d' : Definition} :
    ∀ e : Entry, r.addEntry source d e = .ok d' → d'.entity = d.entity
  | .property field value, h => by
    simp only [addEntry, bind_eq_ok, pure_eq_ok] at h
    obtain ⟨_, -, rfl⟩ := h
    rfl
  | .links field targets, h => by
    simp only [addEntry, bind_eq_ok, pure_eq_ok] at h
    obtain ⟨_, -, rfl⟩ := h
    rfl
  | .child head name body, h => by
    rw [addEntry] at h
    split at h
    · simp only [bind_eq_ok, pure_eq_ok] at h
      obtain ⟨_, -, _, -, rfl⟩ := h
      rfl
    · cases h

theorem entity_addEntries {d d' : Definition} :
    ∀ es : List Entry, r.addEntries source d es = .ok d' → d'.entity = d.entity
  | [], h => by
    rw [addEntries, Except.ok.injEq] at h
    rw [h]
  | e :: es, h => by
    rw [addEntries, bind_eq_ok] at h
    obtain ⟨c, hc, h⟩ := h
    rw [entity_addEntries es h, entity_addEntry e hc]

end

end Entities

/-- A statement describes a definition of the grammar. -/
theorem entity_mem_of_definitionOf {r : Repository} {source : String} {s : Statement}
    {d : Definition} (h : r.definitionOf source s = .ok d) :
    d.entity ∈ r.dialect.grammar.entities := by
  rw [definitionOf, bind_eq_ok] at h
  obtain ⟨e, he, h⟩ := h
  rw [entity_addEntries r source _ h]
  exact Named.mem_of_get? (entityAt_eq_ok.1 he)

theorem exists_fill_of_applyStatement {r r' : Repository} {source : String} {s : Statement}
    (h : r.applyStatement source s = .ok r') :
    ∃ f : Filling, f.OfGrammar r.dialect.grammar ∧ r' = r.fill f := by
  simp only [applyStatement, bind_eq_ok, mapError_eq_ok] at h
  obtain ⟨d, hd, h⟩ := h
  have hentity := entity_mem_of_definitionOf hd
  cases hv : s.verb with
  | create =>
    simp only [hv, mapError_eq_ok] at h
    exact ⟨.add d, fun _ ha => Option.some.inj ha ▸ hentity, by simp [fill, h]⟩
  | alter =>
    simp only [hv, pure_eq_ok] at h
    exact ⟨.alter d, by simp [Filling.OfGrammar, Filling.added?], h.symm⟩
  | declare =>
    simp only [hv, pure_eq_ok] at h
    exact ⟨.declare s.name.value, by simp [Filling.OfGrammar, Filling.added?], h.symm⟩

theorem exists_foldl_fill_of_applyAll (source : String) (r : Repository) (ss : List Statement) :
    ∃ steps : List Filling, (∀ f ∈ steps, f.OfGrammar r.dialect.grammar) ∧
      (applyAll source r ss).1 = steps.foldl fill r := by
  induction ss generalizing r with
  | nil => exact ⟨[], by simp, rfl⟩
  | cons s ss ih =>
    rw [applyAll]
    cases h : r.applyStatement source s with
    | ok r' =>
      obtain ⟨f, hf, rfl⟩ := exists_fill_of_applyStatement h
      obtain ⟨steps, hgrammar, hsteps⟩ := ih (r.fill f)
      rw [dialect_fill] at hgrammar
      exact ⟨f :: steps, List.forall_mem_cons.2 ⟨hf, hgrammar⟩, hsteps⟩
    | error e => exact ⟨[], by simp, rfl⟩

/-- What loading a text does, even one that fails, some steps of filling do. -/
theorem exists_foldl_fill_of_load (r : Repository) (source text : String) :
    ∃ steps : List Filling, (∀ f ∈ steps, f.OfGrammar r.dialect.grammar) ∧
      (r.load source text).1 = steps.foldl fill r := by
  unfold load
  split
  · exact exists_foldl_fill_of_applyAll source r _
  · exact ⟨[], by simp, rfl⟩

@[simp] theorem dialect_foldl_fill (steps : List Filling) (r : Repository) :
    (steps.foldl fill r).dialect = r.dialect := by
  obtain ⟨_, _, h⟩ := foldl_fill_extends steps r
  exact h.dialect

/-- The repository after loading some texts, one after the other, each given by its name and itself.
One that fails has the effect it had up to there. -/
def loadEach (r : Repository) (texts : List (String × String)) : Repository :=
  texts.foldl (fun r t => (r.load t.1 t.2).1) r

theorem loadEach_cons (r : Repository) (source text : String) (texts : List (String × String)) :
    r.loadEach ((source, text) :: texts) = (r.load source text).1.loadEach texts := rfl

theorem exists_foldl_fill_of_loadEach (r : Repository) (texts : List (String × String)) :
    ∃ steps : List Filling, (∀ f ∈ steps, f.OfGrammar r.dialect.grammar) ∧
      r.loadEach texts = steps.foldl fill r := by
  induction texts generalizing r with
  | nil => exact ⟨[], by simp, rfl⟩
  | cons t texts ih =>
    obtain ⟨source, text⟩ := t
    obtain ⟨steps, hgrammar, hsteps⟩ := r.exists_foldl_fill_of_load source text
    obtain ⟨more, hgrammar', hmore⟩ := ih (r.load source text).1
    rw [hsteps, dialect_foldl_fill] at hgrammar'
    refine ⟨steps ++ more, ?_, by rw [loadEach_cons, hmore, List.foldl_append, ← hsteps]⟩
    exact fun f hf => (List.mem_append.1 hf).elim (hgrammar f) (hgrammar' f)

/-- Whatever texts have been loaded into a new repository, it has been filled. -/
theorem exists_filled_of_loadEach (dialect : Dialect) (texts : List (String × String)) :
    ∃ steps : List Filling, (∀ f ∈ steps, f.OfGrammar dialect.grammar) ∧
      (start dialect).loadEach texts = filled dialect steps :=
  exists_foldl_fill_of_loadEach (start dialect) texts

theorem reachable_loadEach (dialect : Dialect) (texts : List (String × String)) :
    ((start dialect).loadEach texts).Reachable dialect := by
  obtain ⟨steps, -, hsteps⟩ := exists_filled_of_loadEach dialect texts
  exact ⟨steps, hsteps⟩

/-! ## The same contents -/

/-- The repositories hold the same definitions and declared names, and for each key the same
alterations in the same order. -/
structure SameContents (r r' : Repository) : Prop where
  definitions : r.definitions.Perm r'.definitions
  alterations : ∀ key, r.alterations.filter (·.key = key) = r'.alterations.filter (·.key = key)
  declared : ∀ name, r.isDeclared name = r'.isDeclared name

namespace SameContents

variable {r r' : Repository}

theorem symm (h : r.SameContents r') : r'.SameContents r where
  definitions := h.definitions.symm
  alterations key := (h.alterations key).symm
  declared name := (h.declared name).symm

theorem nodup_keys (h : r.SameContents r') (hd : (Definition.keys r.definitions).Nodup) :
    (Definition.keys r'.definitions).Nodup :=
  (h.definitions.map Definition.key).nodup_iff.1 hd

theorem mem_alterations (h : r.SameContents r') {c : Definition} :
    c ∈ r.alterations ↔ c ∈ r'.alterations := by
  have hfilter : c ∈ r.alterations.filter (·.key = c.key) ↔
      c ∈ r'.alterations.filter (·.key = c.key) := by
    rw [h.alterations]
  simpa using hfilter

/-- The same names are satisfied from outside. -/
theorem isExternal (h : r.SameContents r') (prior : Notebook) :
    r.isExternal prior = r'.isExternal prior := by
  have hcontains : ∀ name, r.contains name = r'.contains name := by
    intro name
    rw [Bool.eq_iff_iff, contains, contains, Named.has_iff, Named.has_iff]
    exact (h.definitions.map Definition.key).mem_iff
  funext name
  rw [Repository.isExternal, Repository.isExternal, hcontains, h.declared]

end SameContents

/-! ## Filling in another order -/

theorem foldl_withAdded_of_nodup {dialect : Dialect} {ds added : List Definition}
    (h : (Definition.keys (ds ++ added.flatMap dialect.closure)).Nodup) :
    added.foldl (withAdded dialect) ds = ds ++ added.flatMap dialect.closure := by
  induction added generalizing ds with
  | nil => exact (List.append_nil ds).symm
  | cons d added ih =>
    rw [List.flatMap_cons, ← List.append_assoc] at h ⊢
    have hd := h
    rw [Definition.keys_append, Definition.keys_append, List.nodup_append] at hd
    obtain ⟨-, hclosure, hapart⟩ := List.nodup_append.1 hd.1
    have hfree : firstTaken (Named.names ds) (dialect.closure d) = none :=
      firstTaken_eq_none_iff.2 ⟨hclosure, fun key hk hstored => hapart key hstored key hk rfl⟩
    rw [List.foldl_cons, withAdded, hfree]
    exact ih h

/-- If no key is taken, all definitions are added, with all that they imply. -/
theorem definitions_filled_of_nodup {dialect : Dialect} {steps : List Filling}
    (h : (Definition.keys ((start dialect).definitions ++
      (steps.filterMap Filling.added?).flatMap dialect.closure)).Nodup) :
    (filled dialect steps).definitions = (start dialect).definitions ++
      (steps.filterMap Filling.added?).flatMap dialect.closure := by
  rw [definitions_filled, foldl_withAdded_of_nodup h]

/-- Steps that lead to the same definitions, queue for each key the same alterations in one order,
and declare the same names lead to the same contents. -/
theorem sameContents_filled {dialect : Dialect} {steps steps' : List Filling}
    (hdefinitions : (filled dialect steps).definitions.Perm (filled dialect steps').definitions)
    (hqueued : ∀ key, (steps.filterMap Filling.queued?).filter (·.key = key) =
      (steps'.filterMap Filling.queued?).filter (·.key = key))
    (hdeclared : ∀ name, name ∈ steps.filterMap Filling.declared? ↔
      name ∈ steps'.filterMap Filling.declared?) :
    (filled dialect steps).SameContents (filled dialect steps') where
  definitions := hdefinitions
  alterations key := by rw [alterations_filled, alterations_filled, hqueued]
  declared name := by
    rw [Bool.eq_iff_iff, isDeclared_filled, isDeclared_filled]
    exact hdeclared name

/-- Adding definitions of distinct keys in another order leads to the same definitions. -/
theorem definitions_perm_of_added_perm {dialect : Dialect} {steps steps' : List Filling}
    (hadded : (steps.filterMap Filling.added?).Perm (steps'.filterMap Filling.added?))
    (hkeys : (Definition.keys ((start dialect).definitions ++
      (steps.filterMap Filling.added?).flatMap dialect.closure)).Nodup) :
    (filled dialect steps).definitions.Perm (filled dialect steps').definitions := by
  have hperm := (hadded.flatMap_right dialect.closure).append_left (start dialect).definitions
  rw [definitions_filled_of_nodup hkeys,
    definitions_filled_of_nodup ((hperm.map Definition.key).nodup_iff.1 hkeys)]
  exact hperm

end Repository

namespace Project

/-- Sources that are all read have the effect of their texts. -/
theorem repository_of_loadAll {p q : Project} {sources : List (String × String)}
    (h : p.loadAll sources = .ok q) : q.repository = p.repository.loadEach sources := by
  induction sources generalizing p with
  | nil =>
    cases h
    rfl
  | cons s sources ih =>
    obtain ⟨source, text⟩ := s
    rw [loadAll] at h
    split at h
    · next p' hload => rw [ih h, Repository.loadEach_cons, load_eq_ok hload]
    · cases h

theorem exists_foldl_fill_of_loadAll {p q : Project} {sources : List (String × String)}
    (h : p.loadAll sources = .ok q) :
    ∃ steps : List Filling, (∀ f ∈ steps, f.OfGrammar p.repository.dialect.grammar) ∧
      q.repository = steps.foldl Repository.fill p.repository := by
  rw [repository_of_loadAll h]
  exact p.repository.exists_foldl_fill_of_loadEach sources

end Project

end Metamodel
