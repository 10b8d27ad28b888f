import Metamodel.Proofs.Runs

set_option autoImplicit false

/-! # Where attributes come from

An attribute of a draft was in the draft when it was taken on, or an association added it since. In
both cases one definition of the run put it there (`Run.exists_adds`), and no other definition of
the run does, whatever workbench it is supplied to: the second one would find the attribute there
and fail (`Run.eq_of_adds`). Who adds what does not depend on the order in which definitions are
supplied, as workbenches that can grow into one notebook make the same of a definition
(`Adds.congr`). -/

namespace Metamodel

/-- The notebook has an entity definition of the first name with an attribute of the second. -/
def Notebook.HasAttribute (n : Notebook) (definition name : String) : Prop :=
  ∃ e, n.get? definition = some (.entityDefinition e) ∧ name ∈ Named.names e.attributes

theorem Notebook.Grows.hasAttribute {n m : Notebook} (h : n.Grows m) {definition name : String}
    (hn : n.HasAttribute definition name) : m.HasAttribute definition name := by
  obtain ⟨e, he, hname⟩ := hn
  obtain ⟨e', he', hg⟩ := h.definition he
  refine ⟨e', he', ?_⟩
  cases ha : e.attribute? name with
  | none => exact absurd hname (Named.get?_eq_none_iff.1 ha)
  | some a => exact Named.mem_names_of_get? (hg.attributes name a ha)

namespace Workbench

theorem hasAttribute_preview {b : Workbench} {definition name : String} {x : EntityDraft}
    (hx : b.slot? definition = some (.draft x)) :
    b.preview.HasAttribute definition name ↔ name ∈ x.attributeNames := by
  rw [← EntityDraft.names_attributes]
  constructor
  · rintro ⟨e, he, hn⟩
    rw [get?_preview_of_slot hx] at he
    cases he
    exact hn
  · exact fun hn => ⟨_, get?_preview_of_slot hx, hn⟩

/-! ## Adding an attribute -/

/-- Supplying the definition to the first workbench, which gives the second one, adds an attribute
to an entity definition: as one of its own, or as the foreign key of an association. -/
inductive Adds (b : Workbench) (d : Definition) (b' : Workbench) : String → String → Prop
  | own {x : EntityDraft} {name : String} (hs : d.Becomes b (.draft x))
    (h : b.accept (.draft x) = .ok b') (hn : name ∈ x.attributeNames) : Adds b d b' x.name name
  | key {a : Association} {foreign : String} {key : DataDraft}
    (hk : d.kind? = some .association) (hs : d.toSimple b = .ok (a, foreign, key))
    (h : (b.change foreign (.addData key)).accept (.finished (.association a)) = .ok b') :
    Adds b d b' foreign key.name

namespace Adds

variable {b b' c c' : Workbench} {d : Definition} {definition name : String}

/-- Before, the attribute is not there. -/
theorem not_hasAttribute (h : b.Adds d b' definition name) :
    ¬b.preview.HasAttribute definition name := by
  cases h with
  | own _ h =>
    rintro ⟨e, he, -⟩
    have hnone : b.preview.get? _ = none := (accept_eq_ok h).1
    rw [Slot.name, he] at hnone
    cases hnone
  | key _ hs =>
    obtain ⟨x, hx, hfresh⟩ := Definition.exists_fresh_of_toSimple hs
    rw [hasAttribute_preview hx]
    exact hfresh.free _ (List.mem_singleton.2 rfl)

/-- Afterwards, it is. -/
theorem hasAttribute (h : b.Adds d b' definition name) :
    b'.preview.HasAttribute definition name := by
  cases h with
  | @own x _ _ h hn =>
    have hslot : b'.slot? x.name = some (.draft x) := by
      rw [slot?_accept h]
      exact if_pos rfl
    exact (hasAttribute_preview hslot).2 hn
  | @key _ _ key _ hs h =>
    obtain ⟨x, hx, -⟩ := Definition.exists_fresh_of_toSimple hs
    have hslot := slot?_related hx h definition
    rw [if_neg (get?_eq_none_of_related hx h).2.symm, if_pos rfl, EntityDraft.addData_eq_addAll]
      at hslot
    rw [hasAttribute_preview hslot, EntityDraft.mem_attributeNames_addAll]
    exact .inr (List.mem_singleton.2 rfl)

/-- The definition adds the attribute wherever it is supplied. -/
theorem congr {n : Notebook} (h : b.Adds d b' definition name) (hb : b.preview.Grows n)
    (hs : c.Supplied d c') (hc : c.preview.Grows n) : c.Adds d c' definition name := by
  cases h with
  | own hbecomes _ hn =>
    cases hs with
    | provided hk => exact absurd hk hbecomes.kind_ne_dataType
    | related hk => exact absurd hk hbecomes.kind_ne_association
    | taken hs h =>
      obtain rfl := hs.congr hc hb hbecomes
      exact .own hs h hn
  | key hk hsimple =>
    cases hs with
    | provided hk' => cases hk.symm.trans hk'
    | taken hs => exact absurd hk hs.kind_ne_association
    | related _ hs h =>
      obtain ⟨rfl, rfl, rfl⟩ := Definition.toSimple_congr hb hc hsimple hs
      exact .key hk hs h

end Adds

end Workbench

/-! ## Attributes of runs -/

namespace Run

variable {p n : Notebook} {ds : List Definition} {b c c' : Workbench} {d : Definition}
  {definition name : String}

/-- Every attribute of a draft was added by a definition of the run. -/
theorem exists_adds (h : Run p ds b) {x : EntityDraft}
    (hx : b.slot? definition = some (.draft x)) (hn : name ∈ x.attributeNames) :
    ∃ d ∈ ds, ∃ c c' : Workbench, c.Adds d c' definition name ∧ c.preview.Grows b.preview := by
  induction h generalizing x with
  | start => cases hx
  | freeze => cases hx
  | @supply ds b b' e h hs ih =>
    have hsup := Workbench.supplied_of_supply hs
    have hg := hsup.grows h.buildable
    have he : e ∈ ds ++ [e] := List.mem_append_right ds (List.mem_singleton.2 rfl)
    -- What was there before has been added before.
    have hold : ∀ {y : EntityDraft}, b.slot? definition = some (.draft y) →
        name ∈ y.attributeNames → ∃ d ∈ ds ++ [e], ∃ c c' : Workbench,
          c.Adds d c' definition name ∧ c.preview.Grows b'.preview := by
      intro y hy hn
      obtain ⟨d, hd, c, c', hadds, hc⟩ := ih hy hn
      exact ⟨d, List.mem_append_left [e] hd, c, c', hadds, hc.trans hg⟩
    cases hsup with
    | provided => exact hold hx hn
    | taken hbecomes h =>
      rw [Workbench.slot?_accept h] at hx
      split at hx
      · next hname =>
        cases hx
        exact ⟨e, he, b, b', hname ▸ .own hbecomes h hn, hg⟩
      · exact hold hx hn
    | related hk hsimple h =>
      obtain ⟨y, hy, -⟩ := Definition.exists_fresh_of_toSimple hsimple
      rw [Workbench.slot?_related hy h] at hx
      split at hx
      · cases hx
      · split at hx
        · next hforeign =>
          subst hforeign
          cases hx
          rw [EntityDraft.addData_eq_addAll, EntityDraft.mem_attributeNames_addAll] at hn
          rcases hn with hn | hn
          · exact hold hy hn
          · rw [List.map_singleton, List.mem_singleton] at hn
            exact ⟨e, he, b, b', hn ▸ .key hk hsimple h, hg⟩
        · exact hold hx hn

/-- What a definition of the run adds elsewhere, it has added in the run. -/
theorem hasAttribute_of_adds (h : Run p ds b) (hb : b.preview.Grows n) (hd : d ∈ ds)
    (hadds : c.Adds d c' definition name) (hc : c.preview.Grows n) :
    b.preview.HasAttribute definition name := by
  obtain ⟨e, e', -, hs, hg, hg'⟩ := h.exists_supplied hd
  exact hg'.hasAttribute (hadds.congr hc hs (hg.trans hb)).hasAttribute

/-- Of all definitions of a run, only one adds an attribute of the given names. -/
theorem eq_of_adds (h : Run p ds b) (hb : b.preview.Grows n) {d₁ d₂ : Definition}
    (hd₁ : d₁ ∈ ds) (hd₂ : d₂ ∈ ds) {c₁ c₁' c₂ c₂' : Workbench}
    (h₁ : c₁.Adds d₁ c₁' definition name) (hc₁ : c₁.preview.Grows n)
    (h₂ : c₂.Adds d₂ c₂' definition name) (hc₂ : c₂.preview.Grows n) : d₁ = d₂ := by
  induction h with
  | start => cases hd₁
  | freeze _ hf ih =>
    rw [Workbench.preview_start_of_freeze hf] at hb
    exact ih hb hd₁ hd₂
  | @supply ds b b' e h hs ih =>
    have hsup := Workbench.supplied_of_supply hs
    have hbn := (hsup.grows h.buildable).trans hb
    rw [List.mem_append, List.mem_singleton] at hd₁ hd₂
    rcases hd₁ with hd₁ | rfl <;> rcases hd₂ with hd₂ | rfl
    · exact ih hbn hd₁ hd₂
    -- The one that comes last would have found the attribute there.
    · exact absurd (h.hasAttribute_of_adds hbn hd₁ h₁ hc₁)
        (h₂.congr hc₂ hsup hbn).not_hasAttribute
    · exact absurd (h.hasAttribute_of_adds hbn hd₂ h₂ hc₂)
        (h₁.congr hc₁ hsup hbn).not_hasAttribute
    · rfl

end Run

end Metamodel
