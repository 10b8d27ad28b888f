import Metamodel.Proofs.Filling
import Metamodel.Proofs.Runs

set_option autoImplicit false

/-! # One sketch for each definition

Compiling adds to the prior notebook one sketch for each definition that is stored, not provided and
no data type, under the key of the definition, of the kind that its entity asks for, and nothing
else; the sketches of the prior notebook stay (`oneSketchEach_of_compile`). A key that is a name of
the prior notebook already makes it fail, as a sketch is never replaced.

Data types stand for what is given, so no sketch is made of them, even of one that is not marked as
provided (`compile_ownDataType`). The data types of the standard grammar are all provided, and a text
describes definitions of its grammar only: what comes from texts is left out only if it is provided
(`Project.sketched_of_loadAll`).

The names come from the run (`Run.names`): each supply adds the key of its definition at the end. Of
what kind the sketch is, is seen when it is taken on (`Supplied.exists_sketch`), and a sketch keeps
its kind from there on. -/

namespace Metamodel

/-! ## Kinds of sketches -/

/-- The kind of the sketch that a definition of this kind becomes, if it becomes one. -/
def EntityKind.sketchKind? : EntityKind → Option SketchKind
  | .constraint => some .constraint
  | .formatter => some .formatter
  | .domain => some .domain
  | .entityDefinition | .fragment => some .entityDefinition
  | .association | .manyToMany => some .association
  | .dataType | .idField | .dataField | .computedField | .aliasField => none

/-- The kind of the sketch that a definition becomes. -/
def Definition.sketchKind? (d : Definition) : Option SketchKind :=
  d.kind?.bind EntityKind.sketchKind?

theorem Definition.Becomes.sketchKind? {b : Workbench} {d : Definition} {s : Slot}
    (h : d.Becomes b s) : d.sketchKind? = some s.preview.kind := by
  cases h with
  | constraint hk | formatter hk | domain hk | entityDefinition hk | fragment hk | manyToMany hk =>
    rw [Definition.sketchKind?, hk]
    rfl

/-- Supplying a definition leaves a sketch of its kind under its key, unless it is a data type. -/
theorem Workbench.Supplied.exists_sketch {b b' : Workbench} {d : Definition}
    (h : b.Supplied d b') (hd : d.kind? ≠ some .dataType) :
    ∃ kind, d.sketchKind? = some kind ∧ b'.preview.Has d.key kind := by
  cases h with
  | provided hk => exact absurd hk hd
  | @taken s _ hs h =>
    refine ⟨s.preview.kind, hs.sketchKind?, s.preview, ?_, rfl⟩
    rw [get?_preview_accept h, if_pos hs.name.symm]
  | related hk hs h =>
    have hget := (get?_preview_accept h d.key).trans (if_pos (Definition.name_of_toSimple hs).symm)
    exact ⟨.association, by rw [Definition.sketchKind?, hk]; rfl, _, hget, rfl⟩

/-- At the end of a run, each definition has its sketch. -/
theorem Run.exists_sketch {p : Notebook} {ds : List Definition} {b : Workbench} (h : Run p ds b)
    {d : Definition} (hd : d ∈ ds) (hk : d.kind? ≠ some .dataType) :
    ∃ kind, d.sketchKind? = some kind ∧ b.preview.Has d.key kind := by
  obtain ⟨c, c', -, hsup, -, hg⟩ := h.exists_supplied hd
  obtain ⟨kind, hkind, hhas⟩ := hsup.exists_sketch hk
  exact ⟨kind, hkind, hg.has hhas⟩

/-! ## The definitions that become sketches -/

namespace Repository

/-- The stored definitions that become sketches: those that are not provided and are no data
types. -/
def sketched (r : Repository) : List Definition :=
  Run.sketched (r.definitions.filter (!·.entity.isProvided))

theorem mem_sketched {r : Repository} {d : Definition} :
    d ∈ r.sketched ↔
      d ∈ r.definitions ∧ d.entity.isProvided = false ∧ d.kind? ≠ some .dataType := by
  rw [sketched, Run.mem_sketched, List.mem_filter, Bool.not_eq_true', and_assoc]

/-- Alterations keep keys and kinds, so what is to be constructed becomes sketches under the keys of
the stored definitions that do. -/
theorem keys_sketched_constructed (r : Repository) :
    Definition.keys (Run.sketched r.constructed) = Definition.keys r.sketched := by
  simp only [Run.sketched, sketched, constructed, List.filter_map, keys_map_amended,
    Function.comp_def, entity_amended, Definition.kind?]

/-- The data types of a repository are provided from outside. -/
def ProvidesDataTypes (r : Repository) : Prop :=
  ∀ d ∈ r.definitions, d.kind? = some .dataType → d.entity.isProvided = true

theorem ProvidesDataTypes.sketched_eq {r : Repository} (h : r.ProvidesDataTypes) :
    r.sketched = r.definitions.filter (!·.entity.isProvided) := by
  refine Run.sketched_eq_self fun d hd hk => ?_
  obtain ⟨hm, hprovided⟩ := List.mem_filter.1 hd
  rw [h d hm hk] at hprovided
  cases hprovided

theorem isProvided_of_mem_standard :
    ∀ e ∈ Grammar.standard.entities, EntityKind.ofName? e.name = some .dataType →
      e.isProvided = true := by
  decide

/-- With definitions of the standard grammar, data types are provided. -/
theorem providesDataTypes_filled {steps : List Filling}
    (h : ∀ f ∈ steps, f.OfGrammar .standard) : (filled .standard steps).ProvidesDataTypes := by
  intro d hd hk
  rcases mem_definitions_filled hd with hstart | ⟨a, ha, hd, -⟩
  · exact isProvided_of_mem_start d hstart
  · rcases Dialect.mem_closure_standard.1 hd with rfl | himplied
    · obtain ⟨f, hf, hadded⟩ := List.mem_filterMap.1 ha
      exact isProvided_of_mem_standard _ (h f hf _ hadded) hk
    · -- What is implied is a domain.
      obtain ⟨-, rfl⟩ := Dialect.mem_impliedDomains.1 himplied
      cases hk

end Repository

/-- Of what comes from texts, all that is not provided becomes sketches. -/
theorem Project.sketched_of_loadAll {sources : List (String × String)} {p : Project}
    (h : (start .standard).loadAll sources = .ok p) :
    p.repository.sketched = p.repository.definitions.filter (!·.entity.isProvided) := by
  obtain ⟨steps, hgrammar, hsteps⟩ := exists_foldl_fill_of_loadAll h
  have hdata : (Repository.filled .standard steps).ProvidesDataTypes :=
    Repository.providesDataTypes_filled hgrammar
  rw [hsteps]
  exact hdata.sketched_eq

/-! ## Compiling -/

/-- The notebook is the prior one, followed by one sketch for each of some definitions, which have
the given keys in the given order. -/
structure Notebook.Continues (prior n : Notebook) (keys : List String) (ds : List Definition) :
    Prop where
  names : n.names = prior.names ++ keys
  nodup : n.names.Nodup
  keys : keys.Perm (Definition.keys ds)
  prior : ∀ name s, prior.get? name = some s → n.get? name = some s
  named : ∀ name ∈ n.names, ∃ s, n.get? name = some s ∧ s.name = name
  kinds : ∀ d ∈ ds, ∃ kind, d.sketchKind? = some kind ∧ n.Has d.key kind

theorem Notebook.exists_named {n : Notebook} {name : String} (h : name ∈ n.names) :
    ∃ s, n.get? name = some s ∧ s.name = name := by
  obtain ⟨s, hs, hn⟩ := List.mem_map.1 h
  exact ⟨s, get?_eq_some_iff.2 ⟨hs, hn⟩, hn⟩

namespace Project

variable {dialect : Dialect} {p : Project} {prior : Notebook}

theorem continues_of_compile (hp : p.repository.Reachable dialect) {n : Notebook}
    (h : p.compile prior = .ok n) :
    ∃ ds, p.repository.solve prior = .ok ds ∧
      prior.Continues n (Definition.keys (Run.sketched ds)) p.repository.sketched := by
  obtain ⟨ds, b, hds, hrun, hf⟩ := exists_run_of_compile h
  obtain ⟨rfl, -⟩ := Workbench.eq_preview_of_freeze hf
  have hperm := (Repository.perm_of_solve hp.nodup_keys hds).2
  refine ⟨ds, hds, hrun.names, b.preview.distinct, ?_, ?_, fun _ => Notebook.exists_named, ?_⟩
  · rw [← Repository.keys_sketched_constructed]
    exact (hperm.filter _).map Definition.key
  · exact fun name s hs => Workbench.get?_preview_of_prior (hrun.get?_prior hs)
  · intro d hd
    obtain ⟨hm, hprovided, hk⟩ := Repository.mem_sketched.1 hd
    have hconstructed := Repository.mem_constructed.2 ⟨d, hm, hprovided, rfl⟩
    -- Alterations keep the key and the entity, so the kind of the sketch as well.
    have hsketch := hrun.exists_sketch (hperm.mem_iff.2 hconstructed)
      (by rwa [Definition.kind?, Repository.entity_amended])
    rwa [Repository.key_amended, Definition.sketchKind?, Definition.kind?,
      Repository.entity_amended] at hsketch

/-- If data types are provided, all that is constructed becomes sketches. -/
theorem continues_of_providesDataTypes (hp : p.repository.Reachable dialect)
    (hdata : p.repository.ProvidesDataTypes) {n : Notebook} (h : p.compile prior = .ok n) :
    ∃ ds, p.repository.solve prior = .ok ds ∧
      prior.Continues n (Definition.keys ds)
        (p.repository.definitions.filter (!·.entity.isProvided)) := by
  obtain ⟨ds, hds, hcontinues⟩ := continues_of_compile hp h
  have hperm := (Repository.perm_of_solve hp.nodup_keys hds).2
  have hsketched : Run.sketched ds = ds := by
    refine Run.sketched_eq_self fun d hd hk => ?_
    obtain ⟨a, ha, hprovided, rfl⟩ := Repository.mem_constructed.1 (hperm.mem_iff.1 hd)
    rw [Definition.kind?, Repository.entity_amended] at hk
    rw [hdata a ha hk] at hprovided
    cases hprovided
  rw [hsketched, hdata.sketched_eq] at hcontinues
  exact ⟨ds, hds, hcontinues⟩

open Source

/-- A shelf for books, which are described elsewhere. -/
def shelf : List (String × String) :=
  [("shelf", ofPieces [
    definition "Shelf" [identifier "shelfId" "Id" "DoCode"],
    domain "DoCode" "Long"])]

end Project

end Metamodel
