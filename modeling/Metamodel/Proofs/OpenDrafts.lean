import Metamodel.Proofs.Agreement
import Metamodel.Proofs.ReferenceClosure

set_option autoImplicit false

/-! # Drafts can always be built

A draft is built once when it is taken on, and then stays open for the foreign keys of associations.
However many it gets, it can be built (`drafts_of_foldlM_supply`), and what it builds is what it
built at first, with the keys behind its data attributes (`EntityDefinition.GainsKeys`). So looking
up an entity definition never fails because of a draft, and freezing fails for one reason only: a
domain of objects whose entity definition is not there.

That drafts can be built is an invariant of runs (`Run.buildable`). What a draft was when it was
taken on is known from its trace (`Run.Drawn`); the step at which it was taken on is found by
splitting the run at its definition. -/

namespace Metamodel

/-! ## Gaining foreign keys -/

/-- The second definition is the first one with some foreign keys more. They stand behind the
identifier, the data attributes and the foreign keys that were there, in front of the computed
attributes. -/
def EntityDefinition.GainsKeys (e e' : EntityDefinition) : Prop :=
  ∃ front keys back, e.attributes = front ++ back ∧
    e' = { e with attributes := front ++ keys ++ back } ∧
    (∀ a ∈ front, a.expression? = none) ∧ (∀ a ∈ keys, a.foreignKeyTarget?.isSome) ∧
    ∀ a ∈ back, a.expression?.isSome

namespace DataDraft

variable {persistent : Bool} {k : DataDraft}

theorem expression?_attribute : (k.attribute persistent).expression? = none := by
  rcases k with ⟨_, _, _, _, _ | _⟩ <;> rfl

theorem foreignKeyTarget?_attribute {target : String} (h : k.role = .foreignKey target) :
    (k.attribute persistent).foreignKeyTarget? = some target := by
  rw [attribute_of_foreignKey h]
  rfl

end DataDraft

/-- A draft with more foreign keys builds a definition with more foreign keys. -/
theorem EntityDraft.gainsKeys_addAll {x : EntityDraft} {keys : List DataDraft}
    (h : ∀ k ∈ keys, ∃ target, k.role = .foreignKey target) :
    x.finished.GainsKeys (x.addAll keys).finished := by
  refine ⟨_, _, _, rfl, finished_addAll x keys, ?_, ?_, ?_⟩
  · intro a ha
    rcases List.mem_append.1 ha with ha | ha
    · obtain ⟨k, -, rfl⟩ := List.mem_map.1 ha
      rfl
    · obtain ⟨k, -, rfl⟩ := List.mem_map.1 ha
      exact DataDraft.expression?_attribute
  · intro a ha
    obtain ⟨k, hk, rfl⟩ := List.mem_map.1 ha
    obtain ⟨target, hrole⟩ := h k hk
    rw [DataDraft.foreignKeyTarget?_attribute hrole]
    rfl
  · intro a ha
    obtain ⟨k, -, rfl⟩ := List.mem_map.1 ha
    rfl

namespace Workbench

/-! ## Looking up and freezing -/

/-- Drafts that can be built are no reason for a look-up to fail. -/
theorem Buildable.exists_notebook_error {b : Workbench} (hb : b.Buildable) {name : String}
    {e : ModelError} (h : b.entityDefinition name = .error e) : ∃ e', e = .notebook e' := by
  unfold entityDefinition at h
  split at h
  · next x hx =>
    rw [EntityDraft.build_eq_ok.2 ⟨hb name x hx, rfl⟩] at h
    cases h
  · cases h
    exact ⟨_, rfl⟩
  · cases hfound : b.prior.entityDefinition name with
    | ok d => simp [hfound, Except.mapError] at h
    | error e' =>
      simp only [hfound, Except.mapError, Except.error.injEq] at h
      exact ⟨e', h.symm⟩

theorem build_of_buildable {b : Workbench} (hb : b.Buildable) {s : Slot} (hs : s ∈ b.slots) :
    s.build = .ok s.preview := by
  cases s with
  | finished s => rfl
  | draft x =>
    have hx : b.slot? x.name = some (.draft x) :=
      (Named.get?_eq_some_iff (List.nodup_append.1 b.distinct).2.1).2 ⟨hs, rfl⟩
    rw [Slot.build, EntityDraft.build_eq_ok.2 ⟨hb _ x hx, rfl⟩]
    rfl

/-- If all drafts can be built, the preview can be published. -/
theorem Buildable.publish_eq_ok {b : Workbench} (hb : b.Buildable) :
    b.publish = .ok b.preview :=
  Workbench.publish_eq_ok.2 ⟨fun _ hs => build_of_buildable hb hs, rfl⟩

/-- Then only a domain of objects without its entity definition keeps it from being frozen. -/
theorem Buildable.freeze_eq_ok {b : Workbench} (hb : b.Buildable) :
    b.freeze = .ok b.preview ↔ danglingDomains b.preview = [] :=
  Workbench.freeze_eq_ok.trans (and_iff_right hb.publish_eq_ok)

theorem Buildable.exists_dangling_of_freeze {b : Workbench} (hb : b.Buildable) {e : ModelError}
    (h : b.freeze = .error e) :
    ∃ d target, .domain d ∈ b.preview.sketches ∧ d.definitionName? = some target ∧
      ¬b.preview.Has target .entityDefinition ∧
      e = .broken d.name (.unknownObjectDefinition target) := by
  rw [freeze, hb.publish_eq_ok] at h
  dsimp only at h
  split at h
  · cases h
  · next d target rest hdangling =>
    cases h
    have hmem : (d, target) ∈ danglingDomains b.preview := by
      rw [hdangling]
      exact List.mem_cons_self
    obtain ⟨hd, hname, hnone⟩ := mem_danglingDomains.1 hmem
    exact ⟨d, target, hd, hname, hnone, rfl⟩

/-! ## When a draft was taken on -/

/-- While some definitions were supplied, starting on a prior notebook, the draft was taken on under
the name, which was free until then. -/
def TookOn (prior : Notebook) (ds : List Definition) (name : String) (x : EntityDraft) : Prop :=
  ∃ before d after c c', ds = before ++ d :: after ∧
    before.foldlM supply (start prior) = .ok c ∧ c.slot? name = none ∧
    c.supply d = .ok c' ∧ c'.slot? name = some (.draft x)

/-- A draft on the workbench is one that was taken on, with further foreign keys. -/
theorem exists_tookOn {prior : Notebook} {ds : List Definition} {b : Workbench}
    (h : ds.foldlM supply (start prior) = .ok b) {name : String} {x : EntityDraft}
    (hx : b.slot? name = some (.draft x)) :
    ∃ x₀ keys, TookOn prior ds name x₀ ∧ x₀.violations = [] ∧ x₀.Fresh keys ∧
      x = x₀.addAll keys := by
  have hrun : Run prior ds b := Run.start.foldlM_supply h
  rcases hrun.traced name _ (get?_preview_of_slot hx) with hprior | ⟨x₀, keys, hdrawn⟩
  · rw [slot?_eq_none_of_prior (hrun.get?_prior hprior)] at hx
    cases hx
  refine ⟨x₀, keys, ?_, hdrawn.violations, hdrawn.fresh, hdrawn.eq_addAll hx⟩
  obtain ⟨d, hd, rfl, e, hbecomes, he⟩ := hdrawn.exists_definition
  obtain ⟨before, after, rfl⟩ := List.append_of_mem hd
  obtain ⟨c, c', hc, hc', -⟩ := foldlM_append_cons_eq_ok.1 h
  refine ⟨before, d, after, c, c', rfl, hc, ?_⟩
  have hbefore : Run prior before c := Run.start.foldlM_supply hc
  have hgrow := hbefore.grows_of_subset hrun (List.subset_append_left before (d :: after))
  -- Where the run supplies `d`, it makes of it what it is traced to.
  cases supplied_of_supply hc' with
  | provided hk => exact absurd hk hbecomes.kind_ne_dataType
  | related hk => exact absurd hk hbecomes.kind_ne_association
  | taken hs haccept =>
    obtain rfl := hs.congr hgrow he hbecomes
    rw [← hs.name]
    refine ⟨slot?_eq_none_of_preview (accept_eq_ok haccept).1, hc', ?_⟩
    rw [slot?_accept haccept, if_pos rfl]

/-- **Open drafts can always be built.** Whatever definitions have been supplied, each draft builds
what it built when it was taken on, with further foreign keys; looking up an entity definition fails
only for lack of one; and freezing fails only if a domain of objects lacks its entity definition. -/
theorem drafts_of_foldlM_supply {prior : Notebook} {ds : List Definition} {b : Workbench}
    (h : ds.foldlM supply (start prior) = .ok b) :
    (∀ name x, b.slot? name = some (.draft x) → ∃ e, x.build = .ok e ∧
      ∃ x₀ e₀, TookOn prior ds name x₀ ∧ x₀.build = .ok e₀ ∧ e₀.GainsKeys e) ∧
    (∀ name e, b.entityDefinition name = .error e → ∃ e', e = .notebook e') ∧
    ∀ e, b.freeze = .error e → ∃ d target, .domain d ∈ b.preview.sketches ∧
      d.definitionName? = some target ∧ ¬b.preview.Has target .entityDefinition ∧
      e = .broken d.name (.unknownObjectDefinition target) := by
  have hb : b.Buildable := Run.buildable (Run.start.foldlM_supply h)
  refine ⟨?_, fun _ _ => hb.exists_notebook_error, fun _ => hb.exists_dangling_of_freeze⟩
  intro name x hx
  obtain ⟨x₀, keys, htook, hv, hfresh, rfl⟩ := exists_tookOn h hx
  exact ⟨_, EntityDraft.build_eq_ok.2 ⟨hb name _ hx, rfl⟩, x₀, _, htook,
    EntityDraft.build_eq_ok.2 ⟨hv, rfl⟩, EntityDraft.gainsKeys_addAll hfresh.foreign⟩

open Source

/-- A town. Associations add keys to a person and to a fragment of it, and a domain ranges over the
objects of a definition that is not there. -/
def town : List (String × String) :=
  [("values", ofPieces [
    domain "DoCode" "Long",
    block "create Domain" "DoGhost" [link "dataType" "DtObject", text "TYPE" "Ghost"]]),
   ("people", ofPieces [
    definition "Person" [
      identifier "personId" "Id" "DoCode",
      block "field" "size" [text "label" "Size", link "domain" "DoCode"],
      block "computed" "age" [
        text "label" "Age", link "domain" "DoCode", text "expression" "now - birth"]],
    definition "City" [identifier "cityId" "Id" "DoCode"],
    block "create Fragment" "Guest" [link "from" "Person", block "alias" "size" []]]),
   ("relations", ofPieces [
    association "Lives" "Person" "City" [text "type" "*>1"],
    association "Born" "Person" "City" [text "type" "*>?", text "fkFieldName" "birth"],
    association "Visits" "Guest" "City" [text "type" "*>?"]])]

theorem drafts_of_foldlM_supply_town :
    ∃ p ds b e, (Project.start .standard).loadAll town = .ok p ∧
      p.repository.solve .empty = .ok ds ∧ ds.foldlM supply (start .empty) = .ok b ∧
      b.entityDefinition "Person" = .ok e ∧
      e.attributes.map Attribute.name = ["personId", "size", "cityId", "birth", "age"] ∧
      b.freeze.map Notebook.names =
        .error (.broken "DoGhost" (.unknownObjectDefinition "Ghost")) ∧
      (∀ name x, b.slot? name = some (.draft x) → ∃ e, x.build = .ok e ∧
        ∃ x₀ e₀, TookOn .empty ds name x₀ ∧ x₀.build = .ok e₀ ∧ e₀.GainsKeys e) ∧
      (∀ name e, b.entityDefinition name = .error e → ∃ e', e = .notebook e') ∧
      ∀ e, b.freeze = .error e → ∃ d target, .domain d ∈ b.preview.sketches ∧
        d.definitionName? = some target ∧ ¬b.preview.Has target .entityDefinition ∧
        e = .broken d.name (.unknownObjectDefinition target) := by
  have hload : (Project.start .standard).loadAll town = _ :=
    Project.loadAll_ofList _ [(_, _), (_, _), (_, _)]
  have hbuild : (do
      let p ← (Project.start .standard).loadAll town
      let ds ← p.repository.solve .empty
      let b ← ds.foldlM supply (start .empty)
      let e ← b.entityDefinition "Person"
      return (e.attributes.map Attribute.name, b.freeze.map Notebook.names) :
        Except ModelError _) =
      .ok (["personId", "size", "cityId", "birth", "age"],
        .error (.broken "DoGhost" (.unknownObjectDefinition "Ghost"))) := by
    rw [hload]
    decide +kernel
  simp only [bind_eq_ok, pure_eq_ok, Prod.mk.injEq] at hbuild
  obtain ⟨p, hp, ds, hds, b, hb, e, he, hnames, hfreeze⟩ := hbuild
  exact ⟨p, ds, b, e, hp, hds, hb, he, hnames, hfreeze, drafts_of_foldlM_supply hb⟩

end Workbench

end Metamodel
