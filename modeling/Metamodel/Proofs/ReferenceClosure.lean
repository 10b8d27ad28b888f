import Metamodel.Proofs.Runs
import Metamodel.Proofs.Loading

set_option autoImplicit false

/-! # References are closed

Sketches refer to each other by name. `Sketch.Refers` lists the references of each kind of sketch
with the kind that has to stand under the name, and a notebook is `Closed` if every reference leads
to a sketch of that kind. Compiling on a closed notebook gives a closed one, so the look-ups of a
domain never fail in it (`closed_of_compile`).

During a build all references but one sort lead somewhere already: constructions check what they
name, or copy it from an entity definition that is there. Domains of objects are the exception,
since they may be built before their entity definition. `Notebook.Founded` allows for that; every
supply keeps it (`founded_of_supplied`), and freezing settles the rest. -/

namespace Metamodel

/-! ## References -/

/-- The sketch refers by the given name to a sketch of the given kind. -/
inductive Sketch.Refers : Sketch → String → SketchKind → Prop
  | formatter {d : Domain} {name : String} (h : d.formatterName? = some name) :
    Refers (.domain d) name .formatter
  | constraint {d : Domain} {name : String} (h : name ∈ d.constraintNames) :
    Refers (.domain d) name .constraint
  | objects {d : Domain} {name : String} (h : d.definitionName? = some name) :
    Refers (.domain d) name .entityDefinition
  | attributeDomain {e : EntityDefinition} {a : Attribute} (h : a ∈ e.attributes) :
    Refers (.entityDefinition e) a.domain .domain
  | foreignKey {e : EntityDefinition} {a : Attribute} {target : String} (h : a ∈ e.attributes)
    (ht : a.kind = .foreignKey target) : Refers (.entityDefinition e) target .entityDefinition
  | origin {e : EntityDefinition} {name : String} (h : e.origin = some name) :
    Refers (.entityDefinition e) name .entityDefinition
  | associationEnd {a : Association} (side : Side) :
    Refers (.association a) (a.endAt side).definition .entityDefinition

/-- Everything the sketch refers to is in the notebook. -/
def Sketch.Settled (s : Sketch) (n : Notebook) : Prop :=
  ∀ name kind, s.Refers name kind → n.Has name kind

theorem Sketch.Settled.mono {s : Sketch} {n m : Notebook} (h : s.Settled n) (hg : n.Grows m) :
    s.Settled m :=
  fun name kind hr => hg.has (h name kind hr)

/-- The sketch is a domain of objects of an entity definition. -/
def Sketch.RangesOver (s : Sketch) (name : String) : Prop :=
  ∃ d, s = .domain d ∧ d.definitionName? = some name

namespace Notebook

/-- Every reference leads to a sketch of its kind. -/
def Closed (n : Notebook) : Prop := ∀ s ∈ n.sketches, s.Settled n

/-- Every reference leads to a sketch of its kind, except that the entity definition of a domain of
objects may be missing. -/
def Founded (n : Notebook) : Prop :=
  ∀ name s, n.get? name = some s → s.Settled n ∨ ∃ e, s.RangesOver e

theorem Closed.founded {n : Notebook} (h : n.Closed) : n.Founded :=
  fun _ s hs => .inl (h s (get?_eq_some_iff.1 hs).1)

/-- An entity definition refers to nothing that could be missing. -/
theorem Founded.settled {n : Notebook} (h : n.Founded) {name : String} {e : EntityDefinition}
    (he : n.get? name = some (.entityDefinition e)) : (Sketch.entityDefinition e).Settled n := by
  rcases h name _ he with h | ⟨_, _, h, -⟩
  · exact h
  · cases h

end Notebook

/-! ## What definitions become -/

theorem Definition.settled_domain {b : Workbench} {d : Definition} {x : Domain}
    (h : d.toDomain b = .ok x) :
    (Sketch.domain x).Settled b.preview ∨ ∃ e, (Sketch.domain x).RangesOver e := by
  obtain ⟨dataType, scope, -, hs, rfl⟩ := toDomain_eq_ok.1 h
  rcases domainScope_eq_ok hs with ⟨type, f, cs, rfl, hf, hc⟩ | ⟨c, rfl⟩ | ⟨e, rfl⟩
  · left
    rintro name kind (h | h | h)
    · exact hf name h
    · exact hc name h
    · cases h
  · left
    rintro name kind (h | h | h) <;> cases h
  · exact .inr ⟨e, _, rfl, rfl⟩

theorem Definition.Drafted.settled {b : Workbench} {d : Definition} {x : EntityDraft}
    (h : d.Drafted b x) (hb : b.preview.Founded) :
    (Sketch.entityDefinition x.finished).Settled b.preview := by
  intro name kind hr
  cases hr with
  | attributeDomain ha =>
    rcases h.domains _ ha with hd | ⟨_, e, he, shown, hs, hd⟩
    · exact hd
    · rw [← hd]
      exact hb.settled he _ _ (.attributeDomain hs)
  | foreignKey ha ht => exact h.origin _ (h.keys _ ha _ ht)
  | origin ho => exact h.origin _ ho

theorem Definition.settled_manyToMany {b : Workbench} {d : Definition} {a : Association}
    (h : d.toManyToMany b = .ok a) : (Sketch.association a).Settled b.preview := by
  obtain ⟨definitionA, definitionB, endA, endB, table, -, -, ha, hb, -, hends, rfl⟩ :=
    toManyToMany_eq_ok h
  obtain ⟨rfl, rfl, -, -⟩ := ends_eq_ok hends
  rintro name kind (_ | _ | _ | _ | _ | _ | side)
  cases side
  · exact ha
  · exact hb

/-- What a definition becomes refers to what is there, or is a domain of objects. -/
theorem Definition.Becomes.settled {b : Workbench} {d : Definition} {s : Slot}
    (h : d.Becomes b s) (hb : b.preview.Founded) :
    s.preview.Settled b.preview ∨ ∃ e, s.preview.RangesOver e := by
  cases h with
  | constraint | formatter =>
    left
    rintro name kind ⟨⟩
  | domain _ h => exact settled_domain h
  | entityDefinition _ h => exact .inl ((drafted_of_toEntityDraft h).settled hb)
  | fragment _ h => exact .inl ((drafted_of_toFragmentDraft h).settled hb)
  | manyToMany _ h => exact .inl (settled_manyToMany h)

/-- Both ends of a simple association are there. -/
theorem Definition.settled_simple {b : Workbench} {d : Definition} {a : Association}
    {foreign : String} {key : DataDraft} (h : d.toSimple b = .ok (a, foreign, key)) :
    (Sketch.association a).Settled b.preview := by
  obtain ⟨endA, endB, side, e, id, x, -, he, -, hx, -, rfl, -, rfl⟩ := toSimple_eq_ok.1 h
  have hprimary : b.preview.Has (side.pick endA endB).definition .entityDefinition :=
    ⟨_, Workbench.get?_of_entityDefinition he, rfl⟩
  have hforeign : b.preview.Has (side.other.pick endA endB).definition .entityDefinition :=
    ⟨_, Workbench.get?_of_draft hx, rfl⟩
  rintro name kind (_ | _ | _ | _ | _ | _ | side')
  cases side <;> cases side' <;> assumption

/-- A draft with the foreign key of a simple association refers to what is there. -/
theorem Definition.settled_addData {b : Workbench} {d : Definition} {a : Association}
    {foreign : String} {key : DataDraft} {x : EntityDraft}
    (h : d.toSimple b = .ok (a, foreign, key)) (hx : b.slot? foreign = some (.draft x))
    (hb : b.preview.Founded) :
    (Sketch.entityDefinition (x.addData key).finished).Settled b.preview := by
  obtain ⟨endA, endB, side, e, id, _, -, he, hid, -, -, -, rfl, -⟩ := toSimple_eq_ok.1 h
  have hprimary := Workbench.get?_of_entityDefinition he
  have hold := hb.settled (Workbench.get?_preview_of_slot hx)
  intro name kind hr
  cases hr with
  | attributeDomain ha =>
    rcases EntityDraft.mem_attributes_addAll.1 ha with ha | ha
    · exact hold _ _ (.attributeDomain ha)
    · rw [List.map_singleton, List.mem_singleton] at ha
      -- The key has the domain of the primary identifier.
      rw [ha, DataDraft.domain_attribute]
      exact hb.settled hprimary _ _ (.attributeDomain (List.mem_of_find?_eq_some hid))
  | foreignKey ha ht =>
    rcases EntityDraft.mem_attributes_addAll.1 ha with ha | ha
    · exact hold _ _ (.foreignKey ha ht)
    · rw [List.map_singleton, List.mem_singleton] at ha
      rw [ha, DataDraft.kind_attribute_eq_foreignKey_iff] at ht
      cases ht
      exact ⟨_, hprimary, rfl⟩
  | origin ho => exact hold _ _ (.origin ho)

/-! ## Builds -/

/-- Supplying a definition leaves at most entity definitions of domains missing. -/
theorem founded_of_supplied {b b' : Workbench} {d : Definition} (hb : b.Buildable)
    (h : b.Supplied d b') (hf : b.preview.Founded) : b'.preview.Founded := by
  have hg := h.grows hb
  have hold : ∀ name s, b.preview.get? name = some s →
      s.Settled b'.preview ∨ ∃ e, s.RangesOver e :=
    fun name s hs => (hf name s hs).imp_left fun h => h.mono hg
  intro name s hs
  cases h with
  | provided => exact hf name s hs
  | taken hbecomes h =>
    rw [Workbench.get?_preview_accept h] at hs
    split at hs
    · cases hs
      exact (hbecomes.settled hf).imp_left fun h => h.mono hg
    · exact hold name s hs
  | related _ hsimple h =>
    obtain ⟨x, hx, -⟩ := Definition.exists_fresh_of_toSimple hsimple
    rw [Workbench.get?_preview_related hx h] at hs
    split at hs
    · cases hs
      exact .inl ((Definition.settled_simple hsimple).mono hg)
    · split at hs
      · cases hs
        exact .inl ((Definition.settled_addData hsimple hx hf).mono hg)
      · exact hold name s hs

theorem Notebook.has_entityDefinition_iff {n : Notebook} {name : String} :
    n.Has name .entityDefinition ↔ ∃ e, n.entityDefinition name = .ok e := by
  constructor
  · rintro ⟨s, hs, hk⟩
    cases s with
    | entityDefinition e => exact ⟨e, entityDefinition_eq_ok.2 hs⟩
    | _ => cases hk
  · rintro ⟨e, he⟩
    exact ⟨_, entityDefinition_eq_ok.1 he, rfl⟩

/-- The dangling domains are the domains of objects whose entity definition is not there. -/
theorem Workbench.mem_danglingDomains {n : Notebook} {d : Domain} {target : String} :
    (d, target) ∈ danglingDomains n ↔ .domain d ∈ n.sketches ∧ d.definitionName? = some target ∧
      ¬n.Has target .entityDefinition := by
  have hdomain : d ∈ n.sketches.filterMap Sketch.domain? ↔ .domain d ∈ n.sketches := by
    rw [List.mem_filterMap]
    constructor
    · rintro ⟨s, hs, hd⟩
      cases s <;> cases hd
      exact hs
    · exact fun h => ⟨_, h, rfl⟩
  rw [danglingDomains, List.mem_filterMap, Notebook.has_entityDefinition_iff, ← hdomain]
  constructor
  · rintro ⟨x, hx, hfound⟩
    split at hfound
    · next name hname =>
      split at hfound
      · cases hfound
      · next e he =>
        cases hfound
        exact ⟨hx, hname, by simp [he]⟩
    · cases hfound
  · rintro ⟨hd, hname, hnone⟩
    refine ⟨d, hd, ?_⟩
    rw [hname]
    dsimp only
    split
    · next e he => exact absurd ⟨e, he⟩ hnone
    · rfl

/-- A notebook without dangling domains has the entity definition of every domain of objects. -/
theorem has_of_danglingDomains {n : Notebook} (h : Workbench.danglingDomains n = []) {s : Sketch}
    (hs : s ∈ n.sketches) {e : String} (he : s.RangesOver e) : n.Has e .entityDefinition := by
  obtain ⟨d, rfl, hd⟩ := he
  by_contra hnone
  have hdangling := Workbench.mem_danglingDomains.2 ⟨hs, hd, hnone⟩
  rw [h] at hdangling
  cases hdangling

/-- What is founded and has no dangling domain is closed. -/
theorem Notebook.Founded.closed {n : Notebook} (h : n.Founded)
    (hd : Workbench.danglingDomains n = []) : n.Closed := by
  intro s hs
  rcases h s.name s (get?_eq_some_iff.2 ⟨hs, rfl⟩) with h | ⟨e, he⟩
  · exact h
  · have hhas := has_of_danglingDomains hd hs he
    -- A domain of objects refers to nothing else.
    obtain ⟨⟨name, package, scope, storeType, multiple⟩, rfl, hscope⟩ := he
    cases scope <;> cases hscope
    rintro name kind (h | h | h) <;> cases h
    exact hhas

/-! ## Look-ups of domains -/

theorem exists_formatterIn {n : Notebook} (h : n.Closed) {d : Domain}
    (hd : .domain d ∈ n.sketches) : ∃ f, d.formatterIn n = .ok f := by
  unfold Domain.formatterIn
  split
  · next name hname =>
    obtain ⟨s, hs, hk⟩ := h _ hd name .formatter (.formatter hname)
    cases s with
    | formatter f => exact ⟨some f, by rw [Notebook.formatter_eq_ok.2 hs]; rfl⟩
    | _ => cases hk
  · exact ⟨none, rfl⟩

theorem exists_constraintsIn {n : Notebook} (h : n.Closed) {d : Domain}
    (hd : .domain d ∈ n.sketches) : ∃ cs, d.constraintsIn n = .ok cs := by
  have hall : ∀ name ∈ d.constraintNames, ∃ c, n.constraint name = .ok c := by
    intro name hname
    obtain ⟨s, hs, hk⟩ := h _ hd name .constraint (.constraint hname)
    cases s with
    | constraint c => exact ⟨c, Notebook.constraint_eq_ok.2 hs⟩
    | _ => cases hk
  unfold Domain.constraintsIn
  generalize d.constraintNames = names at hall
  induction names with
  | nil => exact ⟨[], rfl⟩
  | cons name names ih =>
    obtain ⟨c, hc⟩ := hall name List.mem_cons_self
    obtain ⟨cs, hcs⟩ := ih fun n hn => hall n (List.mem_cons_of_mem _ hn)
    exact ⟨c :: cs, by rw [List.mapM_cons, hc, hcs]; rfl⟩

theorem exists_definitionIn {n : Notebook} (h : n.Closed) {d : Domain}
    (hd : .domain d ∈ n.sketches) {name : String} (hname : d.definitionName? = some name) :
    ∃ e, d.definitionIn n = .ok e := by
  obtain ⟨s, hs, hk⟩ := h _ hd name .entityDefinition (.objects hname)
  unfold Domain.definitionIn
  rw [hname]
  cases s with
  | entityDefinition e => exact ⟨e, Notebook.entityDefinition_eq_ok.2 hs⟩
  | _ => cases hk

/-! ## Compiling -/

/-- Whatever has been loaded into a project, compiling it on a closed notebook gives a closed one,
in which no look-up of a domain fails. -/
theorem closed_of_compile {p : Project} {prior n : Notebook} (hprior : prior.Closed)
    (h : p.compile prior = .ok n) :
    n.Closed ∧ ∀ d, .domain d ∈ n.sketches →
      (∃ f, d.formatterIn n = .ok f) ∧ (∃ cs, d.constraintsIn n = .ok cs) ∧
        ∀ name, d.scope = .dataObject name → ∃ e, d.definitionIn n = .ok e := by
  obtain ⟨ds, b, -, hrun, hfreeze⟩ := Project.exists_run_of_compile h
  obtain ⟨rfl, hdangling⟩ := Workbench.eq_preview_of_freeze hfreeze
  have hfounded : b.preview.Founded :=
    hrun.preview_induction hprior.founded fun _ _ _ => founded_of_supplied
  have hclosed := hfounded.closed hdangling
  refine ⟨hclosed, fun d hd => ⟨exists_formatterIn hclosed hd, exists_constraintsIn hclosed hd, ?_⟩⟩
  intro name hscope
  exact exists_definitionIn hclosed hd (by rw [Domain.definitionName?, hscope])

open Source

/-- A garage, in three sources: what the second and third refer to is loaded before them. -/
def garage : List (String × String) :=
  [("values", ofPieces [
    declared "DoElsewhere",
    block "create Constraint" "CkPlate" [text "className" "Plate"],
    block "create Formatter" "FmtPlate" [text "className" "Upper"],
    block "create Domain" "DoPlate" [
      link "dataType" "String", link "formatter" "FmtPlate", link "constraint" "[CkPlate]"]]),
   ("definitions", ofPieces [
    definition "Car" [identifier "plate" "Plate" "DoPlate"],
    definition "Owner" [identifier "name" "Name" "DoPlate"],
    block "create Fragment" "CarView" [link "from" "Car", block "alias" "plate" []]]),
   ("relations", ofPieces [
    association "Owns" "Car" "Owner" [text "type" "*>1"],
    block "create AssociationNN" "Drives" [
      link "dtDefinitionA" "Car", link "dtDefinitionB" "Owner", text "tableName" "DRIVES"]])]

/-- The garage compiles on the empty notebook, to one with references of every kind. -/
theorem closed_of_compile_garage :
    ∃ p n, (Project.start .standard).loadAll garage = .ok p ∧ Notebook.empty.Closed ∧
      p.compile .empty = .ok n ∧
      n.names = ["CkPlate", "FmtPlate", "DoPlate", "Car", "DoCar", "Owner", "DoOwner", "CarView",
        "DoCarView", "Owns", "Drives"] ∧
      n.Closed ∧ ∀ d, .domain d ∈ n.sketches →
        (∃ f, d.formatterIn n = .ok f) ∧ (∃ cs, d.constraintsIn n = .ok cs) ∧
          ∀ name, d.scope = .dataObject name → ∃ e, d.definitionIn n = .ok e := by
  have hload : (Project.start .standard).loadAll garage = _ :=
    Project.loadAll_ofList _ [(_, _), (_, _), (_, _)]
  have hbuild : (Project.start .standard).loadAll garage >>=
      (fun p => Notebook.names <$> p.compile .empty) =
      .ok ["CkPlate", "FmtPlate", "DoPlate", "Car", "DoCar", "Owner", "DoOwner", "CarView",
        "DoCarView", "Owns", "Drives"] := by
    rw [hload]
    decide +kernel
  simp only [bind_eq_ok, functorMap_eq_ok] at hbuild
  obtain ⟨p, hp, n, hn, hnames⟩ := hbuild
  have hempty : Notebook.empty.Closed := by
    intro _ hs
    cases hs
  exact ⟨p, n, hp, hempty, hn, hnames, closed_of_compile hempty hn⟩

end Metamodel
