import Metamodel.Proofs.Lookup

set_option autoImplicit false

/-! # Growth

A draft that has been taken on changes in one way only: it gets further foreign keys behind its data
attributes. Such a draft stays buildable if the keys are `EntityDraft.Fresh`
(`violations_addAll_eq_nil`), and what it stands for `Grows`: the attributes it had are found as
before, it is identified and selects as before, and everything else is the same
(`grows_addAll`).

`EntityDefinition.Grows` says this without the drafts, `Sketch.Grows` and `Notebook.Grows` carry it
to sketches and notebooks. What was read from a notebook is so compared with what is read from any
later one. -/

namespace Metamodel

/-! ## Attributes of drafts -/

namespace DataDraft

variable {persistent : Bool} {k : DataDraft}

@[simp] theorem name_attribute : (k.attribute persistent).name = k.name := by
  rcases k with ⟨_, _, _, _, _ | _⟩ <;> rfl

@[simp] theorem domain_attribute : (k.attribute persistent).domain = k.domain := by
  rcases k with ⟨_, _, _, _, _ | _⟩ <;> rfl

theorem isId_attribute : (k.attribute persistent).isId = false := by
  rcases k with ⟨_, _, _, _, _ | _⟩ <;> simp [DataDraft.attribute, Attribute.isId]

theorem kind_attribute_eq_foreignKey_iff {target : String} :
    (k.attribute persistent).kind = .foreignKey target ↔ k.role = .foreignKey target := by
  rcases k with ⟨_, _, _, _, _ | _⟩ <;> simp [DataDraft.attribute]

theorem attribute_of_foreignKey {target : String} (h : k.role = .foreignKey target) :
    k.attribute persistent =
      ⟨k.name, k.label, .foreignKey target, k.cardinality, persistent, k.domain⟩ := by
  simp only [DataDraft.attribute, h]

end DataDraft

/-! ## Drafts -/

namespace EntityDraft

/-- What stands twice is repeated, and what stands before already. -/
theorem mem_repeated_iff {before ns : List String} {n : String} :
    n ∈ repeated before ns ↔ (n ∈ before ∧ n ∈ ns) ∨ 1 < ns.count n := by
  induction ns generalizing before with
  | nil => simp [repeated]
  | cons m ns ih =>
    have hcount : 0 < ns.count n ↔ n ∈ ns := List.count_pos_iff
    rw [repeated]
    by_cases hnm : n = m
    · subst hnm
      by_cases hn : n ∈ before
      · simp [hn]
      · rw [if_neg hn, ih, List.count_cons_self]
        simp only [List.mem_cons, true_or, true_and, hn, false_and, false_or, ← hcount]
        omega
    · have hsame : (m :: ns).count n = ns.count n := List.count_cons_of_ne (Ne.symm hnm)
      by_cases hm : m ∈ before
      · simp [hm, ih, hnm, hsame]
      · simp [hm, ih, hnm, hsame]

theorem repeated_eq_nil_iff {before ns : List String} :
    repeated before ns = [] ↔ ns.Nodup ∧ ∀ n ∈ ns, n ∉ before := by
  simp only [List.eq_nil_iff_forall_not_mem, mem_repeated_iff, not_or, not_and, Nat.not_lt,
    List.nodup_iff_count_le_one]
  constructor
  · intro h
    exact ⟨fun n => (h n).2, fun n hn hb => (h n).1 hb hn⟩
  · rintro ⟨hd, hb⟩ n
    exact ⟨fun hn hm => hb n hm hn, hd n⟩

/-- A name is selected to order, show or handle objects. -/
def Selects (d : EntityDraft) (name : String) : Prop :=
  d.sort = some name ∨ d.display = some name ∨ d.handle = some name

theorem mem_missingSelections {d : EntityDraft} {name : String} :
    name ∈ d.missingSelections ↔ d.Selects name ∧ name ∉ d.attributeNames := by
  have hmem : name ∈ [d.sort, d.display, d.handle].filterMap (fun s => s) ↔ d.Selects name := by
    simp [Selects, eq_comm (a := some name)]
  rw [missingSelections, List.mem_filter, hmem, hasAttribute, Bool.not_eq_true',
    List.contains_eq_mem, decide_eq_false_iff_not]

theorem missingSelections_eq_nil_iff {d : EntityDraft} :
    d.missingSelections = [] ↔ ∀ name, d.Selects name → name ∈ d.attributeNames := by
  simp only [List.eq_nil_iff_forall_not_mem, mem_missingSelections, not_and, not_not]

/-- A draft can be built if its identifier and data space are in order, no two attributes have one
name, and what it selects is there. -/
theorem violations_eq_nil_iff {d : EntityDraft} :
    d.violations = [] ↔ d.identityViolations = [] ∧ isDataSpace d.effectiveDataSpace = true ∧
      d.attributeNames.Nodup ∧ ∀ name, d.Selects name → name ∈ d.attributeNames := by
  simp only [violations, brokenRules, List.append_eq_nil_iff, List.map_eq_nil_iff,
    missingSelections_eq_nil_iff, repeated_eq_nil_iff, List.not_mem_nil, not_false_eq_true,
    implies_true, and_true, ite_eq_left_iff, List.cons_ne_nil, imp_false, Bool.not_eq_true,
    Bool.not_eq_false, and_assoc]

/-- A draft with an origin is one of a fragment. -/
theorem effectiveStereotype_eq_fragment {d : EntityDraft} (h : d.violations = [])
    (ho : d.origin.isSome = true) : d.effectiveStereotype = .fragment := by
  by_contra hs
  have hid := (violations_eq_nil_iff.1 h).1
  simp [identityViolations, hs, ho] at hid

theorem names_attributes (d : EntityDraft) : Named.names d.attributes = d.attributeNames := by
  simp [Named.names, attributes, attributeNames, Named.nameOf, Function.comp_def,
    IdDraft.attribute, ComputedDraft.attribute]

theorem mem_attributes {d : EntityDraft} {a : Attribute} :
    a ∈ d.attributes ↔ (∃ k ∈ d.ids, k.attribute = a) ∨
      (∃ k ∈ d.data, k.attribute d.effectiveStereotype.isPersistent = a) ∨
      ∃ k ∈ d.computed, k.attribute = a := by
  simp [attributes]

theorem nodup_names_attributes {d : EntityDraft} (h : d.violations = []) :
    (Named.names d.attributes).Nodup := by
  rw [names_attributes]
  exact (violations_eq_nil_iff.1 h).2.2.1

/-- An attribute of a draft that can be built is found under its name. -/
theorem attribute?_finished {d : EntityDraft} (h : d.violations = []) {name : String}
    {a : Attribute} : d.finished.attribute? name = some a ↔ a ∈ d.attributes ∧ a.name = name :=
  Named.get?_eq_some_iff (nodup_names_attributes h)

theorem attribute?_finished_eq_none {d : EntityDraft} {name : String} :
    d.finished.attribute? name = none ↔ name ∉ d.attributeNames := by
  rw [← names_attributes]
  exact Named.get?_eq_none_iff

/-- The identifier is the first of the draft's identifiers, whatever its other attributes are. -/
theorem id?_finished (d : EntityDraft) : d.finished.id? = d.ids.head?.map IdDraft.attribute := by
  have hdata : (d.data.map (DataDraft.attribute d.effectiveStereotype.isPersistent)).find?
      Attribute.isId = none := by
    simp [List.find?_eq_none, DataDraft.isId_attribute]
  have hcomputed : (d.computed.map ComputedDraft.attribute).find? Attribute.isId = none := by
    simp [List.find?_eq_none, ComputedDraft.attribute, Attribute.isId]
  rw [EntityDefinition.id?, finished, attributes, List.find?_append, List.find?_append, hdata,
    hcomputed]
  cases d.ids with
  | nil => rfl
  | cons i is => simp [IdDraft.attribute, Attribute.isId]

/-! ## Further foreign keys -/

/-- The draft with some more data attributes or foreign keys, behind those it has. -/
def addAll (d : EntityDraft) (keys : List DataDraft) : EntityDraft :=
  { d with data := d.data ++ keys }

theorem addData_eq_addAll (d : EntityDraft) (k : DataDraft) : d.addData k = d.addAll [k] := rfl

@[simp] theorem addAll_nil (d : EntityDraft) : d.addAll [] = d := by
  simp [addAll]

theorem addAll_addData (d : EntityDraft) (keys : List DataDraft) (k : DataDraft) :
    (d.addAll keys).addData k = d.addAll (keys ++ [k]) := by
  simp [addAll, addData]

/-- Foreign keys that a draft can take on: no name stands twice among them or is in use. -/
structure Fresh (d : EntityDraft) (keys : List DataDraft) : Prop where
  foreign : ∀ k ∈ keys, ∃ target, k.role = .foreignKey target
  nodup : (keys.map DataDraft.name).Nodup
  free : ∀ k ∈ keys, k.name ∉ d.attributeNames

theorem Fresh.nil (d : EntityDraft) : d.Fresh [] := ⟨by simp, by simp, by simp⟩

theorem mem_attributeNames_addAll {d : EntityDraft} {keys : List DataDraft} {name : String} :
    name ∈ (d.addAll keys).attributeNames ↔
      name ∈ d.attributeNames ∨ name ∈ keys.map DataDraft.name := by
  simp only [attributeNames, addAll, List.map_append, List.mem_append]
  tauto

theorem mem_attributes_addAll {d : EntityDraft} {keys : List DataDraft} {a : Attribute} :
    a ∈ (d.addAll keys).attributes ↔ a ∈ d.attributes ∨
      a ∈ keys.map (DataDraft.attribute d.effectiveStereotype.isPersistent) := by
  simp only [attributes, addAll, List.map_append, List.mem_append, effectiveStereotype]
  tauto

/-- The keys stand between the data attributes and the computed ones. -/
theorem finished_addAll (d : EntityDraft) (keys : List DataDraft) :
    (d.addAll keys).finished = { d.finished with
      attributes :=
        d.ids.map IdDraft.attribute ++
            d.data.map (DataDraft.attribute d.effectiveStereotype.isPersistent) ++
          keys.map (DataDraft.attribute d.effectiveStereotype.isPersistent) ++
          d.computed.map ComputedDraft.attribute } := by
  have hattributes : (d.addAll keys).finished.attributes =
      d.ids.map IdDraft.attribute ++
          d.data.map (DataDraft.attribute d.effectiveStereotype.isPersistent) ++
        keys.map (DataDraft.attribute d.effectiveStereotype.isPersistent) ++
        d.computed.map ComputedDraft.attribute := by
    simp [finished, attributes, addAll, effectiveStereotype]
  rw [← hattributes]
  rfl

/-- One more key is fresh if its name is not in use, the keys before it included. -/
theorem Fresh.concat {d : EntityDraft} {keys : List DataDraft} (h : d.Fresh keys) {k : DataDraft}
    {target : String} (hrole : k.role = .foreignKey target)
    (hk : (d.addAll keys).hasAttribute k.name = false) : d.Fresh (keys ++ [k]) := by
  have hfree : k.name ∉ d.attributeNames ∧ k.name ∉ keys.map DataDraft.name := by
    rw [← not_or, ← mem_attributeNames_addAll]
    exact hasAttribute_eq_false_iff.1 hk
  refine ⟨?_, ?_, ?_⟩
  · intro c hc
    rcases List.mem_append.1 hc with hc | hc
    · exact h.foreign c hc
    · rw [List.mem_singleton.1 hc]
      exact ⟨target, hrole⟩
  · rw [List.map_append, List.nodup_append]
    refine ⟨h.nodup, by simp, ?_⟩
    rintro n hn m hm rfl
    rw [List.map_singleton, List.mem_singleton] at hm
    exact hfree.2 (hm ▸ hn)
  · intro c hc
    rcases List.mem_append.1 hc with hc | hc
    · exact h.free c hc
    · rw [List.mem_singleton.1 hc]
      exact hfree.1

theorem nodup_attributeNames_addAll {d : EntityDraft} {keys : List DataDraft}
    (hd : d.attributeNames.Nodup) (hk : d.Fresh keys) : (d.addAll keys).attributeNames.Nodup := by
  -- The keys stand in front of the computed attributes, but only the set of names matters.
  have hperm : (d.addAll keys).attributeNames.Perm
      (d.attributeNames ++ keys.map DataDraft.name) := by
    simp only [attributeNames, addAll, List.map_append, List.append_assoc]
    exact .append_left _ (.append_left _ List.perm_append_comm)
  rw [hperm.nodup_iff, List.nodup_append]
  refine ⟨hd, hk.nodup, ?_⟩
  rintro n hn m hm rfl
  obtain ⟨k, hkm, rfl⟩ := List.mem_map.1 hm
  exact hk.free k hkm hn

/-- Fresh foreign keys never keep a draft from being built. -/
theorem violations_addAll_eq_nil {d : EntityDraft} {keys : List DataDraft} (hd : d.violations = [])
    (hk : d.Fresh keys) : (d.addAll keys).violations = [] := by
  obtain ⟨hid, hspace, hnodup, hselects⟩ := violations_eq_nil_iff.1 hd
  refine violations_eq_nil_iff.2 ⟨hid, hspace, nodup_attributeNames_addAll hnodup hk, ?_⟩
  intro name hname
  exact mem_attributeNames_addAll.2 (.inl (hselects name hname))

/-- A further key is found under its name. -/
theorem attribute?_addAll {d : EntityDraft} {keys : List DataDraft} (hd : d.violations = [])
    (hk : d.Fresh keys) {k : DataDraft} (hkm : k ∈ keys) :
    (d.addAll keys).finished.attribute? k.name =
      some (k.attribute d.effectiveStereotype.isPersistent) := by
  rw [attribute?_finished (violations_addAll_eq_nil hd hk), mem_attributes_addAll]
  exact ⟨.inr (List.mem_map_of_mem hkm), DataDraft.name_attribute⟩

end EntityDraft

/-! ## Entity definitions -/

namespace EntityDefinition

/-- A name is selected to order, show or handle objects. -/
def Selects (e : EntityDefinition) (name : String) : Prop :=
  e.sort = some name ∨ e.display = some name ∨ e.handle = some name

/-- The second definition says what the first one says, and may have further attributes; none of
them identifies or is selected. -/
structure Grows (e e' : EntityDefinition) : Prop where
  rest : e' = { e with attributes := e'.attributes }
  attributes : ∀ name a, e.attribute? name = some a → e'.attribute? name = some a
  id : e'.id? = e.id?
  selected : ∀ name, e.Selects name → e'.attribute? name = e.attribute? name

namespace Grows

variable {e e' e'' : EntityDefinition}

theorem refl (e : EntityDefinition) : e.Grows e := ⟨rfl, fun _ _ h => h, rfl, fun _ _ => rfl⟩

theorem stereotype (h : e.Grows e') : e'.stereotype = e.stereotype := by
  rw [h.rest]

theorem dataSpace (h : e.Grows e') : e'.dataSpace = e.dataSpace := by
  rw [h.rest]

theorem sort (h : e.Grows e') : e'.sort = e.sort := by
  rw [h.rest]

theorem display (h : e.Grows e') : e'.display = e.display := by
  rw [h.rest]

theorem handle (h : e.Grows e') : e'.handle = e.handle := by
  rw [h.rest]

/-- What is selected is found as before. -/
theorem bind_attribute? (h : e.Grows e') {choice : Option String}
    (hc : ∀ name, choice = some name → e.Selects name) :
    choice.bind e'.attribute? = choice.bind e.attribute? := by
  cases choice with
  | none => rfl
  | some name => exact h.selected name (hc name rfl)

theorem sortAttribute? (h : e.Grows e') : e'.sortAttribute? = e.sortAttribute? := by
  rw [EntityDefinition.sortAttribute?, h.sort]
  exact h.bind_attribute? fun _ => .inl

theorem displayAttribute? (h : e.Grows e') : e'.displayAttribute? = e.displayAttribute? := by
  rw [EntityDefinition.displayAttribute?, h.display]
  exact h.bind_attribute? fun _ hn => .inr (.inl hn)

theorem handleAttribute? (h : e.Grows e') : e'.handleAttribute? = e.handleAttribute? := by
  rw [EntityDefinition.handleAttribute?, h.handle]
  exact h.bind_attribute? fun _ hn => .inr (.inr hn)

theorem selects (h : e.Grows e') {n : String} (hn : e.Selects n) : e'.Selects n := by
  rw [Selects, h.sort, h.display, h.handle]
  exact hn

theorem trans (h : e.Grows e') (h' : e'.Grows e'') : e.Grows e'' where
  rest := by
    rw [h'.rest, h.rest]
  attributes n a ha := h'.attributes n a (h.attributes n a ha)
  id := h'.id.trans h.id
  selected n hn := (h'.selected n (h.selects hn)).trans (h.selected n hn)

end Grows

end EntityDefinition

/-- What a draft stands for grows with the foreign keys it gets. -/
theorem EntityDraft.grows_addAll {d : EntityDraft} {keys : List DataDraft} (hd : d.violations = [])
    (hk : d.Fresh keys) : d.finished.Grows (d.addAll keys).finished := by
  have hkept : ∀ name a, d.finished.attribute? name = some a →
      (d.addAll keys).finished.attribute? name = some a := by
    intro name a ha
    obtain ⟨hm, hn⟩ := (attribute?_finished hd).1 ha
    exact (attribute?_finished (violations_addAll_eq_nil hd hk)).2
      ⟨mem_attributes_addAll.2 (.inl hm), hn⟩
  refine ⟨rfl, hkept, by rw [id?_finished, id?_finished]; rfl, ?_⟩
  intro name hname
  -- What a buildable draft selects is an attribute of its own already, so no key takes its place.
  have hmem := (violations_eq_nil_iff.1 hd).2.2.2 name hname
  cases ha : d.finished.attribute? name with
  | none => exact absurd hmem (attribute?_finished_eq_none.1 ha)
  | some a => exact hkept name a ha

/-- A definition that has what a draft stands for, and a further key of the draft, has what the
draft with the key stands for. -/
theorem EntityDefinition.Grows.of_addData {d : EntityDraft} {k : DataDraft} {e : EntityDefinition}
    (h : d.finished.Grows e) (hd : d.violations = []) (hk : d.Fresh [k])
    (hke : e.attribute? k.name = some (k.attribute d.effectiveStereotype.isPersistent)) :
    (d.addData k).finished.Grows e where
  rest := h.rest
  attributes name a ha := by
    rw [EntityDraft.addData_eq_addAll,
      EntityDraft.attribute?_finished (EntityDraft.violations_addAll_eq_nil hd hk),
      EntityDraft.mem_attributes_addAll, List.map_singleton, List.mem_singleton] at ha
    obtain ⟨ha | rfl, rfl⟩ := ha
    · exact h.attributes _ _ ((EntityDraft.attribute?_finished hd).2 ⟨ha, rfl⟩)
    · rw [DataDraft.name_attribute]
      exact hke
  id := by
    rw [h.id, EntityDraft.id?_finished, EntityDraft.id?_finished]
    rfl
  selected name hname := by
    rw [h.selected name hname, EntityDraft.addData_eq_addAll]
    exact ((EntityDraft.grows_addAll hd hk).selected name hname).symm

/-! ## Sketches and notebooks -/

/-- The second sketch is the first one, or a definition that the first one grows into. -/
inductive Sketch.Grows : Sketch → Sketch → Prop
  | same (s : Sketch) : Grows s s
  | definition {e e' : EntityDefinition} (h : e.Grows e') :
    Grows (.entityDefinition e) (.entityDefinition e')

namespace Sketch.Grows

variable {s t u : Sketch}

theorem trans (h : s.Grows t) (h' : t.Grows u) : s.Grows u := by
  cases h with
  | same => exact h'
  | definition h =>
    cases h' with
    | same => exact .definition h
    | definition h' => exact .definition (h.trans h')

theorem kind_eq (h : s.Grows t) : t.kind = s.kind := by
  cases h <;> rfl

/-- Only entity definitions grow. -/
theorem eq (h : s.Grows t) (hs : s.kind ≠ .entityDefinition) : t = s := by
  cases h with
  | same => rfl
  | definition => exact absurd rfl hs

theorem exists_definition {e : EntityDefinition} (h : (Sketch.entityDefinition e).Grows t) :
    ∃ e', t = .entityDefinition e' ∧ e.Grows e' := by
  cases h with
  | same => exact ⟨e, rfl, .refl e⟩
  | definition h => exact ⟨_, rfl, h⟩

end Sketch.Grows

/-- Whatever the first notebook has, the second has under the same name, perhaps grown. -/
def Notebook.Grows (n m : Notebook) : Prop :=
  ∀ name s, n.get? name = some s → ∃ t, m.get? name = some t ∧ s.Grows t

namespace Notebook.Grows

variable {n m k : Notebook}

theorem refl (n : Notebook) : n.Grows n := fun _ s h => ⟨s, h, .same s⟩

theorem trans (h : n.Grows m) (h' : m.Grows k) : n.Grows k := by
  intro name s hs
  obtain ⟨t, ht, hst⟩ := h name s hs
  obtain ⟨u, hu, htu⟩ := h' name t ht
  exact ⟨u, hu, hst.trans htu⟩

theorem definition (h : n.Grows m) {name : String} {e : EntityDefinition}
    (he : n.get? name = some (.entityDefinition e)) :
    ∃ e', m.get? name = some (.entityDefinition e') ∧ e.Grows e' := by
  obtain ⟨t, ht, hst⟩ := h name _ he
  obtain ⟨e', rfl, hg⟩ := hst.exists_definition
  exact ⟨e', ht, hg⟩

theorem other (h : n.Grows m) {name : String} {s : Sketch} (hs : n.get? name = some s)
    (hk : s.kind ≠ .entityDefinition) : m.get? name = some s := by
  obtain ⟨t, ht, hst⟩ := h name s hs
  rw [ht, hst.eq hk]

end Notebook.Grows

end Metamodel
