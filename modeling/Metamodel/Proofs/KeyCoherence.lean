import Metamodel.Proofs.Runs
import Metamodel.Proofs.Loading

set_option autoImplicit false

/-! # Foreign keys and simple associations correspond

A simple association and its foreign key are two things written at different times: the key goes to
the draft at the many-valued end, which takes on further keys until it is built. `Notebook.Coherent`
says that they belong together all the same: each simple association has its key where it says, no
two have the same, and each foreign key is that of an association or leads from a fragment to its
origin.

`coherent_of_supplied` carries this through every supply. It rests on what keeps associations from
interfering: a key is taken on only under a name that its draft does not use, so no association of
the notebook keeps its key there yet (`Notebook.Coherent.not_keeps`). -/

namespace Metamodel

/-! ## Coherence -/

/-- The association keeps its foreign key in the given entity definition, under the given name. -/
def Association.Keeps (a : Association) (definition key : String) : Prop :=
  ∃ primary, a.realisation = .foreignKey primary key ∧
    (a.endAt primary.other).definition = definition

/-- The key `name` of an association with the primary end on the given side: the other end is the
only many-valued one, and its entity definition refers to the identifier of the primary one. -/
structure Association.KeyIn (n : Notebook) (a : Association) (primary : Side) (name : String) :
    Prop where
  single : (a.endAt primary).multiplicity.isMany = false
  many : (a.endAt primary.other).multiplicity.isMany = true
  key : ∃ referred id referring k,
    n.entityDefinition (a.endAt primary).definition = .ok referred ∧ referred.id? = some id ∧
    n.entityDefinition (a.endAt primary.other).definition = .ok referring ∧
    referring.attribute? name = some k ∧
    k.kind = .foreignKey (a.endAt primary).definition ∧ k.domain = id.domain ∧
    k.label = (a.endAt primary).label ∧
    ((a.endAt primary).multiplicity = .one → k.cardinality = .one) ∧
    ((a.endAt primary).multiplicity = .zeroOrOne → k.cardinality = .optional)

namespace Notebook

/-- The association is in the notebook and keeps its foreign key in the given entity definition,
under the given name. -/
def Keeps (n : Notebook) (definition key : String) (a : Association) : Prop :=
  .association a ∈ n.sketches ∧ a.Keeps definition key

/-- Simple associations and foreign keys correspond to each other. -/
structure Coherent (n : Notebook) : Prop where
  /-- Every simple association has its foreign key. -/
  keyIn : ∀ a primary name, .association a ∈ n.sketches →
    a.realisation = .foreignKey primary name → a.KeyIn n primary name
  /-- No two simple associations have the same foreign key. -/
  unique : ∀ definition key a a', n.Keeps definition key a → n.Keeps definition key a' → a = a'
  /-- Every foreign key is that of just one simple association, or leads from a fragment to its
  origin. -/
  backed : ∀ e, .entityDefinition e ∈ n.sketches → ∀ k ∈ e.attributes, ∀ target,
    k.kind = .foreignKey target →
      (∃! a, n.Keeps e.name k.name a) ∨ (e.stereotype = .fragment ∧ e.origin = some target)

theorem mem_sketches_iff {n : Notebook} {s : Sketch} :
    s ∈ n.sketches ↔ n.get? s.name = some s := by
  rw [get?_eq_some_iff, and_iff_left rfl]

theorem Keeps.mono {n m : Notebook} {definition key : String} {a : Association}
    (h : n.Keeps definition key a) (hg : n.Grows m) : m.Keeps definition key a := by
  rw [Keeps, mem_sketches_iff] at h ⊢
  exact ⟨hg.other h.1 (by simp [Sketch.kind]), h.2⟩

/-- Where an association keeps its key, there is an attribute of that name. -/
theorem Coherent.exists_attribute {n : Notebook} (h : n.Coherent) {definition key : String}
    {a : Association} (ha : n.Keeps definition key a) :
    ∃ e k, n.get? definition = some (.entityDefinition e) ∧ e.attribute? key = some k := by
  obtain ⟨hmem, primary, hreal, rfl⟩ := ha
  obtain ⟨_, _, e, k, -, -, he, hk, -⟩ := (h.keyIn a primary key hmem hreal).key
  exact ⟨e, k, entityDefinition_eq_ok.1 he, hk⟩

/-- No association keeps its key in a draft under a name that the draft does not use. -/
theorem Coherent.not_keeps {b : Workbench} (h : b.preview.Coherent) {foreign key : String}
    {x : EntityDraft} (hx : b.slot? foreign = some (.draft x)) (hk : key ∉ x.attributeNames)
    (a : Association) : ¬b.preview.Keeps foreign key a := by
  intro ha
  obtain ⟨e, k, he, hek⟩ := h.exists_attribute ha
  rw [Workbench.get?_preview_of_slot hx] at he
  cases he
  rw [EntityDraft.attribute?_finished_eq_none.2 hk] at hek
  cases hek

end Notebook

/-- A key stays where it is when the notebook grows. -/
theorem Association.KeyIn.mono {n m : Notebook} {a : Association} {primary : Side} {name : String}
    (h : a.KeyIn n primary name) (hg : n.Grows m) : a.KeyIn m primary name := by
  obtain ⟨referred, id, referring, k, hp, hid, hf, hk, hrest⟩ := h.key
  rw [Notebook.entityDefinition_eq_ok] at hp hf
  obtain ⟨referred', hp', hpg⟩ := hg.definition hp
  obtain ⟨referring', hf', hfg⟩ := hg.definition hf
  exact ⟨h.single, h.many, referred', id, referring', k,
    Notebook.entityDefinition_eq_ok.2 hp', by rw [hpg.id, hid],
    Notebook.entityDefinition_eq_ok.2 hf', hfg.attributes _ _ hk, hrest⟩

/-! ## Taking one slot on -/

section Taken

variable {b b' : Workbench} {d : Definition} {s : Slot}

/-- What a definition becomes, if it is an association, is realised by a table. -/
theorem Definition.Becomes.not_foreignKey (h : d.Becomes b s) {a : Association}
    (ha : s.preview = .association a) (primary : Side) (name : String) :
    a.realisation ≠ .foreignKey primary name := by
  cases h with
  | manyToMany _ h =>
    obtain ⟨_, _, _, _, _, -, -, -, -, -, -, rfl⟩ := toManyToMany_eq_ok h
    cases ha
    exact fun h => nomatch h
  | constraint | formatter | domain | entityDefinition | fragment => cases ha

/-- Taking a slot on adds no simple association. -/
theorem mem_of_taken (hs : d.Becomes b s) (h : b.accept s = .ok b') {a : Association}
    {primary : Side} {name : String} (hreal : a.realisation = .foreignKey primary name) :
    .association a ∈ b'.preview.sketches ↔ .association a ∈ b.preview.sketches := by
  rw [Notebook.mem_sketches_iff, Notebook.mem_sketches_iff, Workbench.get?_preview_accept h]
  split
  · next hn =>
    constructor
    · intro ha
      exact absurd hreal (hs.not_foreignKey (Option.some.inj ha) primary name)
    · intro ha
      rw [hn, (Workbench.accept_eq_ok h).1] at ha
      cases ha
  · exact .rfl

theorem keeps_of_taken (hs : d.Becomes b s) (h : b.accept s = .ok b') {definition key : String}
    {a : Association} : b'.preview.Keeps definition key a ↔ b.preview.Keeps definition key a :=
  and_congr_left fun ⟨_, hreal, _⟩ => mem_of_taken hs h hreal

/-- A draft is taken on with foreign keys to its origin only. -/
theorem Definition.Drafted.fragment {x : EntityDraft} (h : d.Drafted b x) {k : Attribute}
    (hk : k ∈ x.attributes) {target : String} (ht : k.kind = .foreignKey target) :
    x.finished.stereotype = .fragment ∧ x.finished.origin = some target := by
  have ho := h.keys k hk target ht
  exact ⟨EntityDraft.effectiveStereotype_eq_fragment h.violations (by rw [ho]; rfl), ho⟩

theorem coherent_of_taken (hg : b.preview.Grows b'.preview) (hs : d.Becomes b s)
    (h : b.accept s = .ok b') (hc : b.preview.Coherent) : b'.preview.Coherent where
  keyIn a primary name ha hreal :=
    (hc.keyIn a primary name ((mem_of_taken hs h hreal).1 ha) hreal).mono hg
  unique definition key a a' ha ha' :=
    hc.unique definition key a a' ((keeps_of_taken hs h).1 ha) ((keeps_of_taken hs h).1 ha')
  backed e he k hk target ht := by
    simp only [keeps_of_taken hs h]
    rw [Notebook.mem_sketches_iff, Workbench.get?_preview_accept h] at he
    split at he
    · cases s with
      | finished s =>
        cases he
        cases hs
      | draft x =>
        cases he
        exact .inr (hs.drafted.fragment hk ht)
    · exact hc.backed e (Notebook.mem_sketches_iff.2 he) k hk target ht

end Taken

/-! ## Taking a foreign key and its association on -/

section Related

variable {b b' : Workbench} {d : Definition} {a : Association} {foreign : String} {key : DataDraft}
  {x : EntityDraft}

/-- A simple association keeps its key in the draft it was given. -/
theorem keeps_of_toSimple (hs : d.toSimple b = .ok (a, foreign, key)) {definition name : String} :
    a.Keeps definition name ↔ definition = foreign ∧ name = key.name := by
  obtain ⟨endA, endB, side, e, id, y, -, -, -, -, -, hforeign, -, rfl⟩ :=
    Definition.toSimple_eq_ok.1 hs
  constructor
  · rintro ⟨primary, hreal, rfl⟩
    cases hreal
    exact ⟨hforeign.symm, rfl⟩
  · rintro ⟨rfl, rfl⟩
    exact ⟨side, rfl, hforeign.symm⟩

/-- The associations of the workbench are those from before and the new one. -/
theorem mem_of_related (hx : b.slot? foreign = some (.draft x))
    (h : (b.change foreign (.addData key)).accept (.finished (.association a)) = .ok b')
    {a' : Association} :
    .association a' ∈ b'.preview.sketches ↔ a' = a ∨ .association a' ∈ b.preview.sketches := by
  rw [Notebook.mem_sketches_iff, Notebook.mem_sketches_iff, Workbench.get?_preview_related hx h]
  obtain ⟨hfree, hne⟩ := Workbench.get?_eq_none_of_related hx h
  by_cases hn : a'.name = a.name
  · rw [Sketch.name, if_pos hn, hn, hfree]
    simp [eq_comm]
  · have hne : a' ≠ a := fun h => hn (by rw [h])
    rw [Sketch.name, if_neg hn]
    by_cases hf : a'.name = foreign
    · -- The draft of the key stands there, before and after.
      rw [if_pos hf, hf, Workbench.get?_preview_of_slot hx]
      simp [hne, Slot.preview]
    · rw [if_neg hf]
      simp [hne]

theorem keeps_of_related (hs : d.toSimple b = .ok (a, foreign, key))
    (hx : b.slot? foreign = some (.draft x))
    (h : (b.change foreign (.addData key)).accept (.finished (.association a)) = .ok b')
    {definition name : String} {a' : Association} :
    b'.preview.Keeps definition name a' ↔
      (a' = a ∧ definition = foreign ∧ name = key.name) ∨ b.preview.Keeps definition name a' := by
  rw [Notebook.Keeps, Notebook.Keeps, mem_of_related hx h, or_and_right]
  refine or_congr_left ?_
  constructor
  · rintro ⟨rfl, hk⟩
    exact ⟨rfl, (keeps_of_toSimple hs).1 hk⟩
  · rintro ⟨rfl, hk⟩
    exact ⟨rfl, (keeps_of_toSimple hs).2 hk⟩

/-- The new association has its key. -/
theorem keyIn_of_related (hb : b.Buildable) (hg : b.preview.Grows b'.preview)
    (hs : d.toSimple b = .ok (a, foreign, key)) (hx : b.slot? foreign = some (.draft x))
    (hfresh : x.Fresh [key])
    (h : (b.change foreign (.addData key)).accept (.finished (.association a)) = .ok b')
    {primary : Side} {name : String} (hreal : a.realisation = .foreignKey primary name) :
    a.KeyIn b'.preview primary name := by
  obtain ⟨endA, endB, side, e, id, y, hends, he, hid, -, -, hforeign, hkey, ha⟩ :=
    Definition.toSimple_eq_ok.1 hs
  obtain ⟨hsingle, hmany⟩ := Definition.simpleEnds_eq_ok hends
  rw [ha] at hreal
  obtain ⟨rfl, rfl⟩ := Realisation.foreignKey.inj hreal
  have hendAt : ∀ s, a.endAt s = s.pick endA endB := fun s => by rw [ha]; rfl
  obtain ⟨e', he', heg⟩ := hg.definition (Workbench.get?_of_entityDefinition he)
  have hreferring : b'.preview.get? foreign = some (.entityDefinition (x.addData key).finished) := by
    rw [Workbench.get?_preview_related hx h,
      if_neg (Workbench.get?_eq_none_of_related hx h).2.symm, if_pos rfl]
  have hrole : key.role = .foreignKey (side.pick endA endB).definition := by
    rw [hkey]
    rfl
  have hattribute : (x.addData key).finished.attribute? key.name =
      some (key.attribute x.effectiveStereotype.isPersistent) :=
    EntityDraft.attribute?_addAll (hb _ _ hx) hfresh (List.mem_singleton.2 rfl)
  refine ⟨by rw [hendAt]; exact hsingle, by rw [hendAt]; exact hmany, e', id,
    (x.addData key).finished, _, ?_, by rw [heg.id, hid], ?_, hattribute, ?_⟩
  · rw [hendAt]
    exact Notebook.entityDefinition_eq_ok.2 he'
  · rw [hendAt, ← hforeign]
    exact Notebook.entityDefinition_eq_ok.2 hreferring
  · rw [DataDraft.attribute_of_foreignKey hrole, hendAt, hkey]
    refine ⟨rfl, rfl, rfl, ?_, ?_⟩
    · intro hone
      simp [Definition.foreignKey, hone, Multiplicity.isNotNull]
    · intro hzero
      simp [Definition.foreignKey, hzero, Multiplicity.isNotNull]

/-- A key that the notebook has had is backed by what backed it before. -/
theorem backed_of_related (hs : d.toSimple b = .ok (a, foreign, key))
    (hx : b.slot? foreign = some (.draft x))
    (h : (b.change foreign (.addData key)).accept (.finished (.association a)) = .ok b')
    (hc : b.preview.Coherent) {e : EntityDefinition} (he : .entityDefinition e ∈ b.preview.sketches)
    {k : Attribute} (hk : k ∈ e.attributes) {target : String} (ht : k.kind = .foreignKey target)
    (hne : ¬(e.name = foreign ∧ k.name = key.name)) :
    (∃! a, b'.preview.Keeps e.name k.name a) ∨
      (e.stereotype = .fragment ∧ e.origin = some target) := by
  simp only [keeps_of_related hs hx h, hne, and_false, false_or]
  exact hc.backed e he k hk target ht

/-- The new key is that of the new association only. -/
theorem existsUnique_of_related (hs : d.toSimple b = .ok (a, foreign, key))
    (hx : b.slot? foreign = some (.draft x)) (hfree : key.name ∉ x.attributeNames)
    (h : (b.change foreign (.addData key)).accept (.finished (.association a)) = .ok b')
    (hc : b.preview.Coherent) : ∃! a, b'.preview.Keeps foreign key.name a := by
  refine ⟨a, (keeps_of_related hs hx h).2 (.inl ⟨rfl, rfl, rfl⟩), ?_⟩
  intro a' ha'
  rcases (keeps_of_related hs hx h).1 ha' with ⟨rfl, -⟩ | ha'
  · rfl
  · exact absurd ha' (hc.not_keeps hx hfree a')

theorem unique_of_related (hs : d.toSimple b = .ok (a, foreign, key))
    (hx : b.slot? foreign = some (.draft x)) (hfree : key.name ∉ x.attributeNames)
    (h : (b.change foreign (.addData key)).accept (.finished (.association a)) = .ok b')
    (hc : b.preview.Coherent) {definition name : String} {a₁ a₂ : Association}
    (h₁ : b'.preview.Keeps definition name a₁) (h₂ : b'.preview.Keeps definition name a₂) :
    a₁ = a₂ := by
  -- Only the new association can be one of two: the others were told apart before.
  have hnew := existsUnique_of_related hs hx hfree h hc
  have ha := (keeps_of_related hs hx h).2 (.inl ⟨rfl, rfl, rfl⟩)
  rcases (keeps_of_related hs hx h).1 h₁ with ⟨rfl, rfl, rfl⟩ | hold₁
  · exact hnew.unique ha h₂
  · rcases (keeps_of_related hs hx h).1 h₂ with ⟨rfl, rfl, rfl⟩ | hold₂
    · exact hnew.unique h₁ ha
    · exact hc.unique definition name a₁ a₂ hold₁ hold₂

/-- The keys of the draft are those it had, backed as before, and the new one. -/
theorem backed_of_addData (hs : d.toSimple b = .ok (a, foreign, key))
    (hx : b.slot? foreign = some (.draft x)) (hfree : key.name ∉ x.attributeNames)
    (h : (b.change foreign (.addData key)).accept (.finished (.association a)) = .ok b')
    (hc : b.preview.Coherent) {k : Attribute} (hk : k ∈ (x.addData key).finished.attributes)
    {target : String} (ht : k.kind = .foreignKey target) :
    (∃! a, b'.preview.Keeps foreign k.name a) ∨
      (x.finished.stereotype = .fragment ∧ x.finished.origin = some target) := by
  have hname : x.finished.name = foreign := Named.nameOf_get? (x := Slot.draft x) hx
  rcases EntityDraft.mem_attributes_addAll.1 hk with hk | hk
  · have hmem : .entityDefinition x.finished ∈ b.preview.sketches := by
      rw [Notebook.mem_sketches_iff, Sketch.name, hname]
      exact Workbench.get?_preview_of_slot hx
    have hkey : ¬(x.finished.name = foreign ∧ k.name = key.name) := by
      rintro ⟨-, hkn⟩
      refine hfree (hkn ▸ ?_)
      rw [← EntityDraft.names_attributes]
      exact List.mem_map_of_mem hk
    have hbacked := backed_of_related hs hx h hc hmem hk ht hkey
    rwa [hname] at hbacked
  · rw [List.map_singleton, List.mem_singleton] at hk
    rw [hk, DataDraft.name_attribute]
    exact .inl (existsUnique_of_related hs hx hfree h hc)

theorem coherent_of_related (hb : b.Buildable) (hg : b.preview.Grows b'.preview)
    (hs : d.toSimple b = .ok (a, foreign, key))
    (h : (b.change foreign (.addData key)).accept (.finished (.association a)) = .ok b')
    (hc : b.preview.Coherent) : b'.preview.Coherent := by
  obtain ⟨x, hx, hfresh⟩ := Definition.exists_fresh_of_toSimple hs
  have hfree : key.name ∉ x.attributeNames := hfresh.free key (List.mem_singleton.2 rfl)
  refine ⟨?_, fun _ _ _ _ => unique_of_related hs hx hfree h hc, ?_⟩
  · intro a' primary name ha' hreal
    rcases (mem_of_related hx h).1 ha' with rfl | ha'
    · exact keyIn_of_related hb hg hs hx hfresh h hreal
    · exact (hc.keyIn a' primary name ha' hreal).mono hg
  · intro e he k hk target ht
    rw [Notebook.mem_sketches_iff, Workbench.get?_preview_related hx h] at he
    split at he
    · cases he
    · split at he
      · next hn =>
        cases he
        have hname : (x.addData key).finished.name = foreign := hn
        rw [hname]
        exact backed_of_addData hs hx hfree h hc hk ht
      · next hn =>
        exact backed_of_related hs hx h hc (Notebook.mem_sketches_iff.2 he) hk ht fun h => hn h.1

end Related

/-! ## Compiling -/

theorem coherent_of_supplied {b b' : Workbench} {d : Definition} (hb : b.Buildable)
    (h : b.Supplied d b') (hc : b.preview.Coherent) : b'.preview.Coherent := by
  have hg := h.grows hb
  cases h with
  | provided => exact hc
  | taken hs h => exact coherent_of_taken hg hs h hc
  | related _ hs h => exact coherent_of_related hb hg hs h hc

/-- Whatever has been loaded into a project, compiling it on a coherent notebook gives a coherent
one. -/
theorem coherent_of_compile {p : Project} {prior n : Notebook} (hprior : prior.Coherent)
    (h : p.compile prior = .ok n) : n.Coherent := by
  obtain ⟨ds, b, -, hrun, hfreeze⟩ := Project.exists_run_of_compile h
  rw [(Workbench.eq_preview_of_freeze hfreeze).1]
  exact hrun.preview_induction hprior fun _ _ _ => coherent_of_supplied

open Source

/-- A letter has a sender and perhaps a copyist, both of them people; a fragment shows it. -/
def post : List (String × String) :=
  [("people", ofPieces [
    domain "DoText" "String",
    definition "Person" [identifier "name" "Name" "DoText"]]),
   ("letters", ofPieces [
    definition "Letter" [identifier "number" "Number" "DoText"],
    block "create Fragment" "Cover" [link "from" "Letter", block "alias" "number" []],
    association "Sends" "Letter" "Person" [text "type" "*>1"],
    association "Copies" "Person" "Letter" [
      text "multiplicityA" "0..1", text "multiplicityB" "0..*", link "navigabilityA" "true",
      link "navigabilityB" "true", text "fkFieldName" "copyist"]])]

/-- The names of the attributes and what they are for. -/
def EntityDefinition.shape (e : EntityDefinition) : List (String × AttributeKind) :=
  e.attributes.map fun a => (a.name, a.kind)

/-- In the notebook of the post, a letter has the keys of both associations. -/
theorem coherent_of_compile_post :
    ∃ p n, (Project.start .standard).loadAll post = .ok p ∧ Notebook.empty.Coherent ∧
      p.compile .empty = .ok n ∧
      (n.entityDefinition "Letter").map EntityDefinition.shape =
        .ok [("number", .id), ("name", .foreignKey "Person"), ("copyist", .foreignKey "Person")] ∧
      n.Coherent := by
  have hload : (Project.start .standard).loadAll post = _ :=
    Project.loadAll_ofList _ [(_, _), (_, _)]
  have hbuild : (do
      let p ← (Project.start .standard).loadAll post
      let n ← p.compile .empty
      return (n.entityDefinition "Letter").map EntityDefinition.shape) =
      .ok (.ok
        [("number", .id), ("name", .foreignKey "Person"), ("copyist", .foreignKey "Person")]) := by
    rw [hload]
    decide +kernel
  simp only [bind_eq_ok, pure_eq_ok] at hbuild
  obtain ⟨p, hp, n, hn, hletter⟩ := hbuild
  have hempty : Notebook.empty.Coherent := by
    constructor
    · intro _ _ _ ha
      cases ha
    · intro _ _ _ _ ha
      cases ha.1
    · intro _ he
      cases he
  exact ⟨p, n, hp, hempty, hn, hletter, coherent_of_compile hempty hn⟩

end Metamodel
