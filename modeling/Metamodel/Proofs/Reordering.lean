import Metamodel.Proofs.AttributeOrigins
import Metamodel.Proofs.OpenDrafts
import Metamodel.Proofs.SolutionOrder
import Metamodel.Proofs.Transfer

set_option autoImplicit false

/-! # The order of filling does not matter

Two projects whose repositories have the same contents, in whatever order these have been filled in,
compile to notebooks that agree (`agrees_of_sameContents`): they are solved to the same definitions
in two orders, and runs through the same definitions agree.

Without fragments, moreover, one of them compiles if the other does. A run through one order is
followed step by step through the other (`Reordered.exists_supply`). A definition finds there what
it found at its step of the first run: its targets stand before it in both orders, and whatever it
reads can grow into the result of the first run. Its key is free, as keys are distinct. And if it is
an association, the key that it adds is new to its draft: another definition that had added an
attribute of the same name would have done so in the first run as well (`Run.eq_of_adds`). -/

namespace Metamodel

/-! ## What supplying one after the other gives -/

namespace Workbench

theorem prior_of_foldlM {ds : List Definition} {b b' : Workbench}
    (h : ds.foldlM supply b = .ok b') : b'.prior = b.prior := by
  induction ds generalizing b with
  | nil =>
    cases h
    rfl
  | cons d ds ih =>
    rw [List.foldlM_cons, bind_eq_ok] at h
    obtain ⟨c, hc, h⟩ := h
    rw [ih h, (supplied_of_supply hc).prior]

/-- The slots are those of the definitions that have been supplied. -/
theorem names_slots_of_foldlM {prior : Notebook} {ds : List Definition} {b : Workbench}
    (h : ds.foldlM supply (start prior) = .ok b) :
    Named.names b.slots = Definition.keys (Run.sketched ds) := by
  have hnames := (Run.start.foldlM_supply h).names
  have hprior : b.prior = prior := prior_of_foldlM h
  rw [Notebook.names, preview, Named.names, List.map_append, hprior] at hnames
  rw [← names_map_preview]
  exact List.append_cancel_left hnames

theorem exists_accept {b : Workbench} {s : Slot} (h : b.preview.get? s.name = none) :
    ∃ b', b.accept s = .ok b' :=
  ⟨_, dif_pos (contains_eq_false_iff.2 h)⟩

/-- Entity definitions stay drafts until the workbench is frozen. -/
theorem Supplied.kind_finished {b b' : Workbench} {d : Definition} (h : b.Supplied d b')
    {name : String} {s : Sketch} (hs : b'.slot? name = some (.finished s)) :
    b.slot? name = some (.finished s) ∨ s.kind ≠ .entityDefinition := by
  cases h with
  | provided => exact .inl hs
  | taken hbecomes h =>
    rw [slot?_accept h] at hs
    split at hs
    · cases hs
      cases hbecomes <;> simp [Sketch.kind]
    · exact .inl hs
  | related _ hsimple h =>
    obtain ⟨x, hx, -⟩ := Definition.exists_fresh_of_toSimple hsimple
    rw [slot?_related hx h] at hs
    split at hs
    · cases hs
      simp [Sketch.kind]
    · split at hs
      · cases hs
      · exact .inl hs

end Workbench

theorem Run.kind_finished {p : Notebook} {ds : List Definition} {b : Workbench} (h : Run p ds b)
    {name : String} {s : Sketch} (hs : b.slot? name = some (.finished s)) :
    s.kind ≠ .entityDefinition := by
  induction h with
  | start => cases hs
  | freeze => cases hs
  | supply _ h ih => exact ((Workbench.supplied_of_supply h).kind_finished hs).elim ih id

section HoldAlike

variable {p n : Notebook} {ds ds' : List Definition} {b c : Workbench} {name : String}

/-- What two runs that lead to one notebook hold under a name is alike. -/
theorem Run.holdAlike_of_slots (hb : Run p ds b) (hc : Run p ds' c) (hbn : b.preview.Grows n)
    (hcn : c.preview.Grows n) {s t : Slot} (hs : b.slot? name = some s)
    (ht : c.slot? name = some t) : b.HoldAlike c name := by
  obtain ⟨u, hu, hsu⟩ := hbn name _ (Workbench.get?_preview_of_slot hs)
  obtain ⟨u', hu', htu⟩ := hcn name _ (Workbench.get?_preview_of_slot ht)
  obtain rfl : u = u' := Option.some.inj (hu.symm.trans hu')
  have hkind : t.preview.kind = s.preview.kind := htu.kind_eq.symm.trans hsu.kind_eq
  -- Both slots lead to one sketch, so both are drafts or neither is.
  cases s with
  | finished s =>
    have hks := hb.kind_finished hs
    cases t with
    | draft y => exact absurd hkind.symm hks
    | finished t =>
      obtain rfl : u = s := hsu.eq hks
      obtain rfl : u = t := htu.eq (hc.kind_finished ht)
      exact .finished hs ht
  | draft x =>
    cases t with
    | finished t => exact absurd hkind (hc.kind_finished ht)
    | draft y =>
      obtain ⟨e, rfl, hxe⟩ := hsu.exists_definition
      obtain ⟨e', he, hye⟩ := htu.exists_definition
      cases he
      exact .draft hs ht (hye.id.symm.trans hxe.id)

/-- Two runs that lead to one notebook hold a name alike if both hold it or neither does. -/
theorem Run.holdAlike (hb : Run p ds b) (hc : Run p ds' c) (hbn : b.preview.Grows n)
    (hcn : c.preview.Grows n) (h : b.slot? name = none ↔ c.slot? name = none) :
    b.HoldAlike c name := by
  cases hs : b.slot? name with
  | none => exact .nothing hs (h.1 hs)
  | some s =>
    cases ht : c.slot? name with
    | none =>
      rw [h.2 ht] at hs
      cases hs
    | some t => exact hb.holdAlike_of_slots hc hbn hcn hs ht

end HoldAlike

/-! ## Two orders -/

namespace Definition

/-- Two orders of the same definitions, in both of which links lead backward. -/
structure Reordered (ds ds' : List Definition) : Prop where
  perm : ds.Perm ds'
  nodup : (keys ds).Nodup
  backward : LinksBackward ds
  backward' : LinksBackward ds'

namespace Reordered

variable {ds ds' : List Definition}

theorem symm (h : Reordered ds ds') : Reordered ds' ds where
  perm := h.perm.symm
  nodup := (h.perm.map key).nodup_iff.1 h.nodup
  backward := h.backward'
  backward' := h.backward

/-- What stands before a definition and is linked to by it, stands before it in the other order. -/
theorem mem_keys_sketched (h : Reordered ds ds') {before after before' after' : List Definition}
    {d : Definition} (hds : ds = before ++ d :: after) (hds' : ds' = before' ++ d :: after')
    {name : String} (hl : d.LinksTo name) (hname : name ∈ keys (Run.sketched before)) :
    name ∈ keys (Run.sketched before') := by
  obtain ⟨e, he, rfl⟩ := List.mem_map.1 hname
  obtain ⟨hbefore, hk⟩ := Run.mem_sketched.1 he
  have hmem : e ∈ ds' := h.perm.mem_iff.1 (hds ▸ List.mem_append_left _ hbefore)
  obtain ⟨e', he', hkey⟩ := List.mem_map.1
    (h.backward' before' d after' hds' _ hl (List.mem_map_of_mem hmem))
  obtain rfl := List.inj_on_of_nodup_map h.symm.nodup (hds' ▸ List.mem_append_left _ he') hmem hkey
  exact List.mem_map_of_mem (Run.mem_sketched.2 ⟨he', hk⟩)

/-- Where a run comes to a definition, and where it does so in the other order, the definition finds
the same. -/
theorem seesAlike (h : Reordered ds ds') {before after before' after' : List Definition}
    {d : Definition} (hds : ds = before ++ d :: after) (hds' : ds' = before' ++ d :: after')
    {prior n : Notebook} {b c : Workbench}
    (hb : before.foldlM Workbench.supply (.start prior) = .ok b) (hbn : b.preview.Grows n)
    (hc : before'.foldlM Workbench.supply (.start prior) = .ok c) (hcn : c.preview.Grows n) :
    b.SeesAlike c d := by
  have hrun : Run prior before b := Run.start.foldlM_supply hb
  have hrun' : Run prior before' c := Run.start.foldlM_supply hc
  refine ⟨(Workbench.prior_of_foldlM hc).trans (Workbench.prior_of_foldlM hb).symm,
    hrun'.buildable, fun name hl => hrun.holdAlike hrun' hbn hcn ?_⟩
  rw [Workbench.slot?, Workbench.slot?, Named.get?_eq_none_iff, Named.get?_eq_none_iff,
    Workbench.names_slots_of_foldlM hb, Workbench.names_slots_of_foldlM hc]
  exact not_congr ⟨h.mem_keys_sketched hds hds' hl, h.symm.mem_keys_sketched hds' hds hl⟩

variable {prior : Notebook} {z : Workbench}

/-- The key of a definition is free until it is supplied, in the other order as well. -/
theorem get?_key_eq_none (h : Reordered ds ds') (hz : Run prior ds z)
    {before' after' : List Definition} {d : Definition} (hds' : ds' = before' ++ d :: after')
    (hk : d.kind? ≠ some .dataType) {c : Workbench} (hc : Run prior before' c) :
    c.preview.get? d.key = none := by
  have hnames : (prior.names ++ keys (Run.sketched ds')).Nodup := by
    have hz' := z.preview.distinct
    rw [← Notebook.names, hz.names] at hz'
    exact ((((h.perm.filter _).map key).append_left _).nodup_iff).1 hz'
  have hsketched : Run.sketched ds' = Run.sketched before' ++ d :: Run.sketched after' := by
    rw [hds', Run.sketched, List.filter_append, List.filter_cons_of_pos (by simpa using hk)]
    rfl
  rw [hsketched, keys_append, ← List.append_assoc, ← hc.names] at hnames
  rw [Notebook.get?_eq_none_iff]
  intro hmem
  exact (List.nodup_append.1 hnames).2.2 _ hmem _ List.mem_cons_self rfl

/-- The key that an association adds in a run is new to the draft that it finds in the other
order. -/
theorem hasAttribute_eq_false (h : Reordered ds ds') (hz : Run prior ds z)
    {before' after' : List Definition} {d : Definition} (hds' : ds' = before' ++ d :: after')
    {b b' : Workbench} {definition name : String} (hadds : b.Adds d b' definition name)
    (hb : b.preview.Grows z.preview) {c : Workbench} (hc : Run prior before' c)
    (hcz : c.preview.Grows z.preview) {y : EntityDraft}
    (hy : c.slot? definition = some (.draft y)) : y.hasAttribute name = false := by
  by_contra htaken
  have hmem : name ∈ y.attributeNames := by
    simpa [EntityDraft.hasAttribute] using htaken
  obtain ⟨e, he, c₀, c₀', hadds', hc₀⟩ := hc.exists_adds hy hmem
  have hdz : d ∈ ds := h.perm.mem_iff.2 (hds' ▸ List.mem_append_right _ List.mem_cons_self)
  have hez : e ∈ ds := h.perm.mem_iff.2 (hds' ▸ List.mem_append_left _ he)
  -- Who has added an attribute of that name is `d` itself, but `d` has not been supplied yet.
  obtain rfl := hz.eq_of_adds (.refl _) hez hdz hadds' (hc₀.trans hcz) hadds hb
  have hnodup := h.symm.nodup
  rw [hds', keys_append] at hnodup
  exact (List.nodup_append.1 hnodup).2.2 _ (List.mem_map_of_mem he) _ List.mem_cons_self rfl

/-- If all definitions can be supplied in one order, the next one can be in the other. -/
theorem exists_supply (h : Reordered ds ds') (hfragment : ∀ d ∈ ds, d.kind? ≠ some .fragment)
    (hz : ds.foldlM Workbench.supply (.start prior) = .ok z)
    {before' after' : List Definition} {d : Definition} (hds' : ds' = before' ++ d :: after')
    {c : Workbench} (hc : before'.foldlM Workbench.supply (.start prior) = .ok c) :
    ∃ c', c.supply d = .ok c' := by
  have hd : d ∈ ds := h.perm.mem_iff.2 (hds' ▸ List.mem_append_right _ List.mem_cons_self)
  obtain ⟨before, after, hds⟩ := List.append_of_mem hd
  have hall : Run prior ds z := Run.start.foldlM_supply hz
  have hrun' : Run prior before' c := Run.start.foldlM_supply hc
  rw [hds] at hz
  obtain ⟨b, b', hb, hs, -⟩ := foldlM_append_cons_eq_ok.1 hz
  have hrun : Run prior before b := Run.start.foldlM_supply hb
  -- What either workbench holds can grow into the result of the whole run.
  have hbz : b.preview.Grows z.preview :=
    hrun.grows_of_subset hall (hds ▸ List.subset_append_left before _)
  have hcz : c.preview.Grows z.preview :=
    hrun'.grows_of_subset hall fun e he => h.perm.mem_iff.2 (hds' ▸ List.mem_append_left _ he)
  have hsees := h.seesAlike hds hds' hb hbz hc hcz
  have hnone := fun hk => h.get?_key_eq_none hall hds' hk hrun'
  cases Workbench.supplied_of_supply hs with
  | provided hk => exact ⟨c, Workbench.supply_of_supplied (.provided hk)⟩
  | taken hbecomes haccept =>
    have hbecomes' := hbecomes.transfer (hfragment d hd) hsees
    obtain ⟨c', hc'⟩ := Workbench.exists_accept
      (hbecomes'.name ▸ hnone hbecomes'.kind_ne_dataType)
    exact ⟨c', Workbench.supply_of_supplied (.taken hbecomes' hc')⟩
  | @related a foreign key _ hk hsimple haccept =>
    have hsimple' := toSimple_transfer hsees hsimple fun y hy =>
      h.hasAttribute_eq_false hall hds' (.key hk hsimple haccept) hbz hrun' hcz hy
    obtain ⟨y, hy, -⟩ := exists_fresh_of_toSimple hsimple'
    have hfree : c.preview.get? a.name = none := by
      rw [name_of_toSimple hsimple]
      exact hnone (by simp [hk])
    have hother : a.name ≠ foreign := by
      rintro rfl
      rw [Workbench.get?_preview_of_slot hy] at hfree
      cases hfree
    obtain ⟨c', hc'⟩ := Workbench.exists_accept (b := c.change foreign (.addData key))
      (s := .finished (.association a))
      (by rw [Workbench.get?_preview_change hy]; exact (if_neg hother).trans hfree)
    exact ⟨c', Workbench.supply_of_supplied (.related hk hsimple' hc')⟩

/-- If all definitions can be supplied in one order, they can be in the other. -/
theorem exists_foldlM (h : Reordered ds ds') (hfragment : ∀ d ∈ ds, d.kind? ≠ some .fragment)
    (hz : ds.foldlM Workbench.supply (.start prior) = .ok z) :
    ∃ c, ds'.foldlM Workbench.supply (.start prior) = .ok c := by
  have hprefix : ∀ before' after', ds' = before' ++ after' →
      ∃ c, before'.foldlM Workbench.supply (.start prior) = .ok c := by
    intro before'
    induction before' using List.reverseRecOn with
    | nil => exact fun _ _ => ⟨_, rfl⟩
    | append_singleton before' d ih =>
      intro after' hds'
      rw [List.append_assoc, List.singleton_append] at hds'
      obtain ⟨c, hc⟩ := ih _ hds'
      obtain ⟨c', hc'⟩ := h.exists_supply hfragment hz hds' hc
      exact ⟨c', foldlM_append_cons_eq_ok.2 ⟨c, c', hc, hc', rfl⟩⟩
  exact hprefix ds' [] (List.append_nil _).symm

end Reordered

end Definition

/-! ## Compiling -/

theorem Workbench.danglingDomains_eq_nil_of_grows {n m : Notebook} (h : n.Grows m)
    (h' : m.Grows n) (hm : danglingDomains m = []) : danglingDomains n = [] := by
  rw [List.eq_nil_iff_forall_not_mem]
  rintro ⟨d, target⟩ hd
  obtain ⟨hdomain, hname, hnone⟩ := mem_danglingDomains.1 hd
  have hsketch : m.get? d.name = some (.domain d) :=
    h.other (Notebook.get?_eq_some_iff.2 ⟨hdomain, rfl⟩) (by simp [Sketch.kind])
  have hdangling : (d, target) ∈ danglingDomains m := mem_danglingDomains.2
    ⟨(Notebook.get?_eq_some_iff.1 hsketch).1, hname, fun hhas => hnone (h'.has hhas)⟩
  rw [hm] at hdangling
  cases hdangling

namespace Project

variable {p p' : Project} {prior : Notebook}

/-- The solutions of repositories with the same contents are two orders of the same definitions. -/
theorem exists_reordered (hd : (Definition.keys p.repository.definitions).Nodup)
    (hsame : p.repository.SameContents p'.repository) {ds : List Definition}
    (h : p.repository.solve prior = .ok ds) :
    ∃ ds', p'.repository.solve prior = .ok ds' ∧ Definition.Reordered ds ds' := by
  obtain ⟨ds', hds', hperm⟩ := Repository.exists_perm_of_solve hd hsame h
  exact ⟨ds', hds', hperm.symm, Repository.nodup_keys_of_solve hd h,
    Repository.linksBackward_of_solve hd h,
    Repository.linksBackward_of_solve (hsame.nodup_keys hd) hds'⟩

/-- Without fragments, a project compiles if one with the same contents does. -/
theorem exists_compile_of_sameContents (hd : (Definition.keys p.repository.definitions).Nodup)
    (hsame : p.repository.SameContents p'.repository)
    (hfragment : ∀ d ∈ p.repository.definitions, d.kind? ≠ some .fragment) {n : Notebook}
    (h : p.compile prior = .ok n) : ∃ n', p'.compile prior = .ok n' := by
  obtain ⟨ds, z, hds, hz, hn⟩ := compile_eq_ok.1 h
  obtain ⟨ds', hds', hreordered⟩ := exists_reordered hd hsame hds
  have hnone : ∀ d ∈ ds, d.kind? ≠ some .fragment := by
    intro d hm
    obtain ⟨a, ha, -, rfl⟩ :=
      Repository.mem_constructed.1 ((Repository.perm_of_solve hd hds).2.mem_iff.1 hm)
    rw [Definition.kind?, Repository.entity_amended]
    exact hfragment a ha
  obtain ⟨c, hc⟩ := hreordered.exists_foldlM hnone hz
  have hrun : Run prior ds z := Run.start.foldlM_supply hz
  have hrun' : Run prior ds' c := Run.start.foldlM_supply hc
  obtain ⟨rfl, hdangling⟩ := Workbench.eq_preview_of_freeze hn
  have hdangling' := Workbench.danglingDomains_eq_nil_of_grows
    (hrun'.grows_of_subset hrun hreordered.perm.symm.subset)
    (hrun.grows_of_subset hrun' hreordered.perm.subset) hdangling
  exact ⟨_, compile_eq_ok.2 ⟨ds', c, hds', hc, hrun'.buildable.freeze_eq_ok.2 hdangling'⟩⟩

/-- **Declaration order does not change the model.** Projects whose repositories have the same
contents compile to notebooks that agree, and without fragments one of them compiles if and only if
the other one does. -/
theorem agrees_of_sameContents {dialect : Dialect} (hp : p.repository.Reachable dialect)
    (hsame : p.repository.SameContents p'.repository) (prior : Notebook) :
    (∀ n n', p.compile prior = .ok n → p'.compile prior = .ok n' → n.Agrees n') ∧
    ((∀ d ∈ p.repository.definitions, d.kind? ≠ some .fragment) →
      ((∃ n, p.compile prior = .ok n) ↔ ∃ n', p'.compile prior = .ok n')) := by
  have hd := hp.nodup_keys
  refine ⟨?_, fun hfragment => ⟨?_, ?_⟩⟩
  · intro n n' hn hn'
    obtain ⟨ds, z, hds, hz, hf⟩ := compile_eq_ok.1 hn
    obtain ⟨ds', c, hds', hc, hf'⟩ := compile_eq_ok.1 hn'
    obtain ⟨es, hes, hreordered⟩ := exists_reordered hd hsame hds
    obtain rfl : ds' = es := Except.ok.inj (hds'.symm.trans hes)
    rw [(Workbench.eq_preview_of_freeze hf).1, (Workbench.eq_preview_of_freeze hf').1]
    exact (Run.start.foldlM_supply hz).agrees (Run.start.foldlM_supply hc) hreordered.perm
  · rintro ⟨n, hn⟩
    exact exists_compile_of_sameContents hd hsame hfragment hn
  · rintro ⟨n, hn⟩
    refine exists_compile_of_sameContents (hsame.nodup_keys hd) hsame.symm ?_ hn
    exact fun d hm => hfragment d (hsame.definitions.mem_iff.2 hm)

/-- A project of the standard dialect that some steps have filled. -/
def ofSteps (steps : List Filling) : Project := ⟨Repository.filled .standard steps, []⟩

/-- Where people live and were born: two definitions of places, one of persons, and the associations
between them. -/
def residence : List Definition :=
  let definition (key id : String) : Definition :=
    (Definition.empty EntityKind.entityDefinition.entity key none).addChild FieldName.ids
      (((Definition.empty EntityKind.idField.entity id none).setProperty FieldName.label
        (.text "Id")).addLinks FieldName.domain ["DoCode"])
  let association (key place : String) : Definition :=
    (((Definition.empty EntityKind.association.entity key none).addLinks
      FieldName.definitionA ["Person"]).addLinks FieldName.definitionB [place]).setProperty
        FieldName.associationType (.text "*>1")
  [(Definition.empty EntityKind.domain.entity "DoCode" none).addLinks FieldName.dataType ["Long"],
    definition "Person" "personId", definition "City" "cityId", definition "Country" "countryId",
    association "Lives" "City", association "Born" "Country"]

/-- An alteration of the data space of an entity definition. -/
def moved (key space : String) : Definition :=
  (Definition.empty EntityKind.entityDefinition.entity key none).setProperty FieldName.dataSpace
    (.text space)

/-- The definitions first, then the alterations. -/
def residenceForward : List Filling :=
  residence.map .add ++
    [.alter (moved "Person" "people"), .alter (moved "City" "places"),
      .alter (moved "Person" "persons"), .declare "DoElsewhere"]

/-- The definitions backward and in between the alterations, those of a person as before. -/
def residenceBackward : List Filling :=
  [.declare "DoElsewhere", .alter (moved "City" "places"), .alter (moved "Person" "people")] ++
    residence.reverse.map .add ++ [.alter (moved "Person" "persons")]

theorem sameContents_residence :
    (ofSteps residenceForward).repository.SameContents
      (ofSteps residenceBackward).repository := by
  refine Repository.sameContents_filled (Repository.definitions_perm_of_added_perm
    (List.reverse_perm residence).symm (by decide +kernel)) ?_ fun _ => .rfl
  intro key
  change [moved "Person" "people", moved "City" "places", moved "Person" "persons"].filter _ =
    [moved "City" "places", moved "Person" "people", moved "Person" "persons"].filter _
  by_cases hperson : "Person" = key
  · subst hperson
    rfl
  · simp [moved, Definition.setProperty, Definition.empty, List.filter_cons, hperson]

/-- Filled in forward, a person refers to the city first and then to the country of birth; filled in
backward, the other way round. -/
theorem agrees_of_sameContents_residence :
    ∃ n n', (ofSteps residenceForward).compile .empty = .ok n ∧
      (ofSteps residenceBackward).compile .empty = .ok n' ∧
      n.same n' = false ∧ n.Agrees n' ∧
      ((∃ m, (ofSteps residenceForward).compile .empty = .ok m) ↔
        ∃ m, (ofSteps residenceBackward).compile .empty = .ok m) := by
  have hbuild : (do
      let n ← (ofSteps residenceForward).compile .empty
      let n' ← (ofSteps residenceBackward).compile .empty
      return n.same n' : Except ModelError Bool) = .ok false := by
    decide +kernel
  have hfragment : ∀ d ∈ (ofSteps residenceForward).repository.definitions,
      d.kind? ≠ some .fragment := by
    decide +kernel
  simp only [bind_eq_ok, pure_eq_ok] at hbuild
  obtain ⟨n, hn, n', hn', hsame⟩ := hbuild
  have hagrees := agrees_of_sameContents ⟨_, rfl⟩ sameContents_residence .empty
  exact ⟨n, n', hn, hn', hsame, hagrees.1 n n' hn hn', hagrees.2 hfragment⟩

end Project

end Metamodel
