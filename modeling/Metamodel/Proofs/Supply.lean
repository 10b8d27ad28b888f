import Metamodel.Proofs.Construction

set_option autoImplicit false

/-! # What supplying a definition does to a workbench

Supplying a definition either changes nothing, or takes one slot on, or relates two definitions: a
draft gets a foreign key and the association is taken on. `Workbench.Supplied` lists these cases.
Only `supplied_of_supply` and its converse `supply_of_supplied` open the construction itself.

From the cases follow the laws that all invariants of a build rest on: names are added at the end
(`Supplied.names`), the prior notebook stays (`Supplied.prior`), drafts can still be built
(`Supplied.buildable`), and what was there only grows (`Supplied.grows`). -/

namespace Metamodel

namespace Definition

/-! ## What definitions become -/

/-- The kind of entity a definition belongs to, if the standard grammar has it. -/
abbrev kind? (d : Definition) : Option EntityKind := EntityKind.ofName? d.entity.name

/-- The slot that a definition becomes on a workbench that it does not change otherwise. -/
inductive Becomes (b : Workbench) (d : Definition) : Slot → Prop
  | constraint {c : Constraint} (hk : d.kind? = some .constraint) (h : d.toConstraint = .ok c) :
    Becomes b d (.finished (.constraint c))
  | formatter {f : Formatter} (hk : d.kind? = some .formatter) (h : d.toFormatter = .ok f) :
    Becomes b d (.finished (.formatter f))
  | domain {x : Domain} (hk : d.kind? = some .domain) (h : d.toDomain b = .ok x) :
    Becomes b d (.finished (.domain x))
  | entityDefinition {x : EntityDraft} (hk : d.kind? = some .entityDefinition)
    (h : d.toEntityDraft b = .ok x) : Becomes b d (.draft x)
  | fragment {x : EntityDraft} (hk : d.kind? = some .fragment) (h : d.toFragmentDraft b = .ok x) :
    Becomes b d (.draft x)
  | manyToMany {a : Association} (hk : d.kind? = some .manyToMany)
    (h : d.toManyToMany b = .ok a) : Becomes b d (.finished (.association a))

namespace Becomes

variable {b b' : Workbench} {d : Definition} {s s' : Slot}

theorem kind_ne_dataType (h : d.Becomes b s) : d.kind? ≠ some .dataType := by
  cases h with
  | constraint hk | formatter hk | domain hk | entityDefinition hk | fragment hk | manyToMany hk =>
    rw [hk]
    decide

theorem kind_ne_association (h : d.Becomes b s) : d.kind? ≠ some .association := by
  cases h with
  | constraint hk | formatter hk | domain hk | entityDefinition hk | fragment hk | manyToMany hk =>
    rw [hk]
    decide

theorem drafted {x : EntityDraft} (h : d.Becomes b (.draft x)) : d.Drafted b x := by
  cases h with
  | entityDefinition _ h => exact drafted_of_toEntityDraft h
  | fragment _ h => exact drafted_of_toFragmentDraft h

/-- A slot carries the key of its definition. -/
theorem name (h : d.Becomes b s) : s.name = d.key := by
  cases h with
  | constraint _ h =>
    simp only [toConstraint, bind_eq_ok, pure_eq_ok] at h
    obtain ⟨_, -, rfl⟩ := h
    rfl
  | formatter _ h =>
    simp only [toFormatter, bind_eq_ok, pure_eq_ok] at h
    obtain ⟨_, -, rfl⟩ := h
    rfl
  | domain _ h =>
    obtain ⟨_, _, -, -, rfl⟩ := toDomain_eq_ok.1 h
    rfl
  | entityDefinition _ h => exact (drafted_of_toEntityDraft h).name
  | fragment _ h => exact (drafted_of_toFragmentDraft h).name
  | manyToMany _ h =>
    obtain ⟨_, _, _, _, _, -, -, -, -, -, -, rfl⟩ := toManyToMany_eq_ok h
    rfl

/-- Workbenches that can grow into one notebook make the same of a definition. -/
theorem congr {n : Notebook} (hb : b.preview.Grows n) (hb' : b'.preview.Grows n)
    (h : d.Becomes b s) (h' : d.Becomes b' s') : s = s' := by
  cases h with
  | constraint hk h =>
    cases h' with
    | constraint _ h' => rw [Except.ok.inj (h.symm.trans h')]
    | formatter hk' | domain hk' | entityDefinition hk' | fragment hk' | manyToMany hk' =>
      cases hk.symm.trans hk'
  | formatter hk h =>
    cases h' with
    | formatter _ h' => rw [Except.ok.inj (h.symm.trans h')]
    | constraint hk' | domain hk' | entityDefinition hk' | fragment hk' | manyToMany hk' =>
      cases hk.symm.trans hk'
  | domain hk h =>
    cases h' with
    | domain _ h' => rw [toDomain_congr h h']
    | constraint hk' | formatter hk' | entityDefinition hk' | fragment hk' | manyToMany hk' =>
      cases hk.symm.trans hk'
  | entityDefinition hk h =>
    cases h' with
    | entityDefinition _ h' => rw [toEntityDraft_congr h h']
    | constraint hk' | formatter hk' | domain hk' | fragment hk' | manyToMany hk' =>
      cases hk.symm.trans hk'
  | fragment hk h =>
    cases h' with
    | fragment _ h' => rw [toFragmentDraft_congr hb hb' h h']
    | constraint hk' | formatter hk' | domain hk' | entityDefinition hk' | manyToMany hk' =>
      cases hk.symm.trans hk'
  | manyToMany hk h =>
    cases h' with
    | manyToMany _ h' => rw [toManyToMany_congr h h']
    | constraint hk' | formatter hk' | domain hk' | entityDefinition hk' | fragment hk' =>
      cases hk.symm.trans hk'

end Becomes

/-- The draft at the many-valued end of a simple association can take on its foreign key. -/
theorem exists_fresh_of_toSimple {b : Workbench} {d : Definition} {a : Association}
    {foreign : String} {key : DataDraft} (h : d.toSimple b = .ok (a, foreign, key)) :
    ∃ x, b.slot? foreign = some (.draft x) ∧ x.Fresh [key] := by
  obtain ⟨endA, endB, side, e, id, x, -, -, -, hx, hfree, -, hkey, -⟩ := toSimple_eq_ok.1 h
  refine ⟨x, Workbench.draft_eq_ok.1 hx, ?_⟩
  have hrole : key.role = .foreignKey (side.pick endA endB).definition := by
    rw [hkey]
    rfl
  exact (EntityDraft.Fresh.nil x).concat hrole (by rwa [EntityDraft.addAll_nil])

end Definition

namespace Workbench

/-! ## The cases of supplying -/

/-- The workbench `b'` is what supplying `d` to `b` gives. -/
inductive Supplied (b : Workbench) (d : Definition) : Workbench → Prop
  | provided (hk : d.kind? = some .dataType) : Supplied b d b
  | taken {s : Slot} {b' : Workbench} (hs : d.Becomes b s) (h : b.accept s = .ok b') :
    Supplied b d b'
  | related {a : Association} {foreign : String} {key : DataDraft} {b' : Workbench}
    (hk : d.kind? = some .association) (hs : d.toSimple b = .ok (a, foreign, key))
    (h : (b.change foreign (.addData key)).accept (.finished (.association a)) = .ok b') :
    Supplied b d b'

theorem accept_of_foldlM {b b' : Workbench} {s : Slot}
    (h : [s].foldlM (fun b s => (b.accept s).mapError ModelError.notebook) b = .ok b') :
    b.accept s = .ok b' := by
  simpa using h

theorem supplied_of_supply {b b' : Workbench} {d : Definition} (h : b.supply d = .ok b') :
    b.Supplied d b' := by
  simp only [supply, bind_eq_ok, Prod.exists] at h
  obtain ⟨c, slots, hc, hs⟩ := h
  -- One case for each line of the construction. Only a simple association changes the workbench
  -- before its slot is taken on.
  unfold construct at hc
  split at hc
  · cases hc
  · next hk =>
    cases hc
    cases hs
    exact .provided hk
  · next hk =>
    simp only [makeConstraint, bind_eq_ok, liftSketch_eq_ok, pure_eq_ok, map_eq_ok] at hc
    obtain ⟨_, ⟨x, hx, rfl⟩, hc⟩ := hc
    cases hc
    exact .taken (.constraint hk hx) (accept_of_foldlM hs)
  · next hk =>
    simp only [makeFormatter, bind_eq_ok, liftSketch_eq_ok, pure_eq_ok, map_eq_ok] at hc
    obtain ⟨_, ⟨x, hx, rfl⟩, hc⟩ := hc
    cases hc
    exact .taken (.formatter hk hx) (accept_of_foldlM hs)
  · next hk =>
    simp only [makeDomain, bind_eq_ok, pure_eq_ok, map_eq_ok] at hc
    obtain ⟨_, ⟨x, hx, rfl⟩, hc⟩ := hc
    cases hc
    exact .taken (.domain hk hx) (accept_of_foldlM hs)
  · next hk =>
    simp only [makeEntityDefinition, bind_eq_ok, pure_eq_ok, map_eq_ok] at hc
    obtain ⟨_, ⟨x, hx, rfl⟩, hc⟩ := hc
    cases hc
    exact .taken (.entityDefinition hk hx) (accept_of_foldlM hs)
  · next hk =>
    simp only [makeFragment, bind_eq_ok, pure_eq_ok, map_eq_ok] at hc
    obtain ⟨_, ⟨x, hx, rfl⟩, hc⟩ := hc
    cases hc
    exact .taken (.fragment hk hx) (accept_of_foldlM hs)
  · next hk =>
    simp only [makeSimple, bind_eq_ok, pure_eq_ok, map_eq_ok, Prod.exists] at hc
    obtain ⟨_, _, ⟨a, foreign, key, hx, hr⟩, hc⟩ := hc
    cases hr
    cases hc
    exact .related hk hx (accept_of_foldlM hs)
  · next hk =>
    simp only [makeManyToMany, bind_eq_ok, pure_eq_ok, map_eq_ok] at hc
    obtain ⟨_, ⟨x, hx, rfl⟩, hc⟩ := hc
    cases hc
    exact .taken (.manyToMany hk hx) (accept_of_foldlM hs)
  · cases hc

/-- What is constructed is what the definition becomes. -/
theorem construct_of_becomes {b : Workbench} {d : Definition} {s : Slot} (h : d.Becomes b s) :
    b.construct d = .ok (b, [s]) := by
  unfold construct
  cases h with
  | constraint hk h | formatter hk h | domain hk h | entityDefinition hk h | fragment hk h
  | manyToMany hk h =>
    rw [Definition.kind?] at hk
    simp [hk, makeConstraint, makeFormatter, makeDomain, makeEntityDefinition, makeFragment,
      makeManyToMany, h]

/-- Each of the cases is one in which supplying succeeds. -/
theorem supply_of_supplied {b b' : Workbench} {d : Definition} (h : b.Supplied d b') :
    b.supply d = .ok b' := by
  cases h with
  | provided hk =>
    rw [Definition.kind?] at hk
    simp [supply, construct, hk]
  | taken hs h => simp [supply, construct_of_becomes hs, h]
  | related hk hs h =>
    rw [Definition.kind?] at hk
    simp [supply, construct, hk, makeSimple, hs, h]

/-! ## What a foreign key and its association change -/

section Related

variable {b b' : Workbench} {a : Association} {foreign : String} {key : DataDraft} {x : EntityDraft}

/-- The association is seen under its name, the key in its draft, and all else as before. -/
theorem get?_preview_related (hx : b.slot? foreign = some (.draft x))
    (h : (b.change foreign (.addData key)).accept (.finished (.association a)) = .ok b')
    (name : String) :
    b'.preview.get? name =
      if name = a.name then some (.association a)
      else if name = foreign then some (.entityDefinition (x.addData key).finished)
      else b.preview.get? name := by
  rw [get?_preview_accept h, get?_preview_change hx]
  rfl

theorem slot?_related (hx : b.slot? foreign = some (.draft x))
    (h : (b.change foreign (.addData key)).accept (.finished (.association a)) = .ok b')
    (name : String) :
    b'.slot? name =
      if name = a.name then some (.finished (.association a))
      else if name = foreign then some (.draft (x.addData key)) else b.slot? name := by
  rw [slot?_accept h, slot?_change]
  by_cases hn : name = foreign
  · rw [if_pos hn, if_pos hn, hn, hx]
    rfl
  · rw [if_neg hn, if_neg hn]
    rfl

/-- The name of the association was free. -/
theorem get?_eq_none_of_related (hx : b.slot? foreign = some (.draft x))
    (h : (b.change foreign (.addData key)).accept (.finished (.association a)) = .ok b') :
    b.preview.get? a.name = none ∧ a.name ≠ foreign := by
  have hnone := (accept_eq_ok h).1
  rw [get?_preview_change hx] at hnone
  split at hnone
  · cases hnone
  · next hn => exact ⟨hnone, hn⟩

end Related

/-! ## What supplying keeps -/

/-- Every draft on the workbench can be built. -/
def Buildable (b : Workbench) : Prop :=
  ∀ name x, b.slot? name = some (.draft x) → x.violations = []

namespace Supplied

variable {b b' : Workbench} {d : Definition}

theorem prior (h : b.Supplied d b') : b'.prior = b.prior := by
  cases h with
  | provided => rfl
  | taken _ h => exact (accept_eq_ok h).2.1
  | related _ _ h => exact (accept_eq_ok h).2.1

/-- A definition adds its key at the end, unless it is a data type. -/
theorem names (h : b.Supplied d b') :
    b'.preview.names = b.preview.names ++ if d.kind? = some .dataType then [] else [d.key] := by
  cases h with
  | provided hk => simp [hk]
  | taken hs h => rw [names_preview_accept h, hs.name, if_neg hs.kind_ne_dataType]
  | related hk hs h =>
    rw [names_preview_accept h, names_preview_change, hk, ← Definition.name_of_toSimple hs]
    rfl

theorem buildable (h : b.Supplied d b') (hb : b.Buildable) : b'.Buildable := by
  intro name y hy
  cases h with
  | provided => exact hb name y hy
  | taken hs h =>
    rw [slot?_accept h] at hy
    split at hy
    · cases hy
      exact hs.drafted.violations
    · exact hb name y hy
  | related _ hs h =>
    obtain ⟨x, hx, hkey⟩ := Definition.exists_fresh_of_toSimple hs
    rw [slot?_related hx h] at hy
    split at hy
    · cases hy
    · split at hy
      · cases hy
        exact EntityDraft.violations_addAll_eq_nil (hb _ x hx) hkey
      · exact hb name y hy

/-- What stands on a workbench stays, except that the definition at the many-valued end of a simple
association grows. -/
theorem grows (h : b.Supplied d b') (hb : b.Buildable) : b.preview.Grows b'.preview := by
  intro name s hs
  cases h with
  | provided => exact ⟨s, hs, .same s⟩
  | taken _ h =>
    have hn : name ≠ _ := fun hn => by
      rw [hn, (accept_eq_ok h).1] at hs
      cases hs
    exact ⟨s, by rw [get?_preview_accept h, if_neg hn, hs], .same s⟩
  | @related a foreign key _ _ hr h =>
    obtain ⟨x, hx, hkey⟩ := Definition.exists_fresh_of_toSimple hr
    have hna : name ≠ a.name := fun hn => by
      rw [hn, (get?_eq_none_of_related hx h).1] at hs
      cases hs
    rw [get?_preview_related hx h, if_neg hna]
    by_cases hn : name = foreign
    · subst hn
      rw [get?_preview_of_slot hx] at hs
      cases hs
      exact ⟨_, if_pos rfl, .definition (EntityDraft.grows_addAll (hb _ x hx) hkey)⟩
    · exact ⟨s, by rw [if_neg hn, hs], .same s⟩

end Supplied

end Workbench

end Metamodel
