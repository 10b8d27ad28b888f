import Metamodel.Proofs.KeyCoherence

set_option autoImplicit false

/-! # Runs through the same definitions agree

Two runs on one prior notebook that supply the same definitions, in whatever order and frozen
whenever, give notebooks that agree: the same names, and under each name the same sketch, except
that the foreign keys which associations add to an entity definition may stand in another order
(`Run.agrees`).

No step of one run has to be matched with a step of the other. Whatever the first run has so far
grows into what the second run gives in the end (`Run.grows_of_subset`): each definition was
supplied somewhere in the second run as well, and what both read can grow into one notebook, so both
made the same of it. Two notebooks that grow into each other differ in the order of attributes only.
To say which attributes these are, `Run.Drawn` traces an entity definition to the draft as it was
taken on and the keys it has got since. -/

namespace Metamodel

/-! ## What one run has grows into what the other gives -/

/-- A draft grows into what a notebook has if it did so without its last key, and some draft with
this key does so. -/
theorem Notebook.Grows.exists_of_key {b c : Workbench} {n : Notebook} {name : String}
    {key : DataDraft} {x y : EntityDraft} (hbn : b.preview.Grows n)
    (hx : b.slot? name = some (.draft x)) (hxv : x.violations = []) (hkx : x.Fresh [key])
    (hcn : c.preview.Grows n) (hyv : y.violations = []) (hky : y.Fresh [key])
    (hy : c.preview.get? name = some (.entityDefinition (y.addData key).finished)) :
    ∃ t, n.get? name = some t ∧ (Sketch.entityDefinition (x.addData key).finished).Grows t := by
  obtain ⟨e, he, hxe⟩ := hbn.definition (Workbench.get?_preview_of_slot hx)
  obtain ⟨f, hf, hyf⟩ := hcn.definition hy
  obtain rfl : e = f := by
    rw [he] at hf
    exact Sketch.entityDefinition.inj (Option.some.inj hf)
  have hstereotype : y.effectiveStereotype = x.effectiveStereotype :=
    hyf.stereotype.symm.trans hxe.stereotype
  have hkey := hyf.attributes _ _
    (EntityDraft.attribute?_addAll hyv hky (List.mem_singleton.2 rfl))
  rw [hstereotype] at hkey
  exact ⟨_, he, .definition (.of_addData hxe hxv hkx hkey)⟩

/-- Two workbenches that can grow into one notebook can do so after the same supply, if one can. -/
theorem Workbench.Supplied.grows_of_supplied {b b' c c' : Workbench} {d : Definition}
    {n : Notebook} (h : b.Supplied d b') (hb : b.Buildable) (hbn : b.preview.Grows n)
    (h' : c.Supplied d c') (hc : c.Buildable) (hcn : c.preview.Grows n)
    (hcn' : c'.preview.Grows n) : b'.preview.Grows n := by
  -- The kind of the definition makes both supplies fall under one case.
  cases h with
  | provided => exact hbn
  | taken hs h =>
    cases h' with
    | provided hk => exact absurd hk hs.kind_ne_dataType
    | related hk => exact absurd hk hs.kind_ne_association
    | taken hs' h' =>
      obtain rfl := hs.congr hbn hcn hs'
      intro name t ht
      rw [get?_preview_accept h] at ht
      split at ht
      · next hn => exact hcn' name t (by rw [get?_preview_accept h', if_pos hn, ht])
      · exact hbn name t ht
  | @related _ foreign key _ hk hs h =>
    cases h' with
    | provided hk' => cases hk.symm.trans hk'
    | taken hs' => exact absurd hk hs'.kind_ne_association
    | related _ hs' h' =>
      obtain ⟨rfl, rfl, rfl⟩ := Definition.toSimple_congr hbn hcn hs hs'
      -- The drafts at the many-valued end may differ, in keys that they have got before.
      obtain ⟨x, hx, hkx⟩ := Definition.exists_fresh_of_toSimple hs
      obtain ⟨y, hy, hky⟩ := Definition.exists_fresh_of_toSimple hs'
      intro name t ht
      rw [get?_preview_related hx h] at ht
      split at ht
      · next hn => exact hcn' name t (by rw [get?_preview_related hy h', if_pos hn, ht])
      · next hna =>
        split at ht
        · next hn =>
          subst hn
          cases ht
          refine hbn.exists_of_key hx (hb _ _ hx) hkx hcn' (hc _ _ hy) hky ?_
          rw [get?_preview_related hy h', if_neg hna, if_pos rfl]
        · exact hbn name t ht

/-- Whatever a run has grows into what another run gives that supplies all of its definitions. -/
theorem Run.grows_of_subset {p : Notebook} {ds ds' : List Definition} {b b' : Workbench}
    (h : Run p ds b) (h' : Run p ds' b') (hs : ds ⊆ ds') : b.preview.Grows b'.preview := by
  induction h with
  | start =>
    rw [Workbench.preview_start]
    exact h'.grows_prior
  | @supply ds c c' d h hsupply ih =>
    obtain ⟨e, e', he, hsup, hg, hg'⟩ := h'.exists_supplied (hs (List.mem_append_right ds
      (List.mem_singleton.2 rfl)))
    have hcg := ih fun x hx => hs (List.mem_append_left [d] hx)
    exact (Workbench.supplied_of_supply hsupply).grows_of_supplied h.buildable hcg hsup he hg hg'
  | freeze _ hf ih =>
    rw [Workbench.preview_start_of_freeze hf]
    exact ih hs

/-! ## Where entity definitions come from -/

/-- An attribute of the entity definition of the given name is a foreign key, and a simple
association keeps it there. -/
def Notebook.Contributed (n : Notebook) (definition : String) (k : Attribute) : Prop :=
  (∃ target, k.kind = .foreignKey target) ∧ ∃ a, n.Keeps definition k.name a

/-- Under the given name stands the draft `x` that a definition of the run was taken on as, with the
foreign keys `keys` that associations have added since. -/
structure Run.Drawn (ds : List Definition) (b : Workbench) (name : String) (x : EntityDraft)
    (keys : List DataDraft) : Prop where
  taken : ∃ d ∈ ds, ∃ c : Workbench, d.Becomes c (.draft x) ∧ c.preview.Grows b.preview
  fresh : x.Fresh keys
  held : b.slot? name = some (.draft (x.addAll keys)) ∨
    b.prior.get? name = some (.entityDefinition (x.addAll keys).finished)
  kept : ∀ k ∈ keys, ∃ a, b.preview.Keeps name k.name a

namespace Run.Drawn

variable {ds ds' : List Definition} {b b' : Workbench} {name : String} {x : EntityDraft}
  {keys : List DataDraft}

theorem violations (h : Drawn ds b name x keys) : x.violations = [] := by
  obtain ⟨d, -, c, hs, -⟩ := h.taken
  exact hs.drafted.violations

theorem get?_preview (h : Drawn ds b name x keys) :
    b.preview.get? name = some (.entityDefinition (x.addAll keys).finished) := by
  rcases h.held with h | h
  · exact Workbench.get?_preview_of_slot h
  · exact Workbench.get?_preview_of_prior h

/-- The draft was taken on under the name it stands under. -/
theorem exists_definition (h : Drawn ds b name x keys) :
    ∃ d ∈ ds, d.key = name ∧
      ∃ c : Workbench, d.Becomes c (.draft x) ∧ c.preview.Grows b.preview := by
  obtain ⟨d, hd, c, hs, hg⟩ := h.taken
  refine ⟨d, hd, ?_, c, hs, hg⟩
  have hname := Notebook.name_of_get? h.get?_preview
  rw [← hs.name]
  exact hname

/-- What stands under other names does not matter. -/
theorem mono (h : Drawn ds b name x keys) (hds : ds ⊆ ds') (hg : b.preview.Grows b'.preview)
    (hslot : b'.slot? name = b.slot? name) (hprior : b'.prior = b.prior) :
    Drawn ds' b' name x keys where
  taken := by
    obtain ⟨d, hd, c, hs, hc⟩ := h.taken
    exact ⟨d, hds hd, c, hs, hc.trans hg⟩
  fresh := h.fresh
  held := by
    rw [hslot, hprior]
    exact h.held
  kept k hk := by
    obtain ⟨a, ha⟩ := h.kept k hk
    exact ⟨a, ha.mono hg⟩

/-- A draft on the workbench is the one taken on, with the keys since. -/
theorem eq_addAll (h : Drawn ds b name x keys) {y : EntityDraft}
    (hy : b.slot? name = some (.draft y)) : y = x.addAll keys := by
  rcases h.held with h | h
  · rw [hy] at h
    cases h
    rfl
  · rw [Workbench.slot?_eq_none_of_prior h] at hy
    cases hy

/-- A draft that has just been taken on has got no keys yet. -/
theorem of_taken {d : Definition} (hs : d.Becomes b (.draft x)) (hd : d ∈ ds)
    (hg : b.preview.Grows b'.preview) (h : b.accept (.draft x) = .ok b') :
    Drawn ds b' x.name x [] where
  taken := ⟨d, hd, b, hs, hg⟩
  fresh := .nil x
  held := by
    left
    rw [Workbench.slot?_accept h, EntityDraft.addAll_nil]
    exact if_pos rfl
  kept k hk := by cases hk

/-- A simple association adds its key to those of the draft at its many-valued end. -/
theorem of_related {d : Definition} {a : Association} {foreign : String} {key : DataDraft}
    (hdrawn : Drawn ds b foreign x keys) (hds : ds ⊆ ds') (hg : b.preview.Grows b'.preview)
    (hs : d.toSimple b = .ok (a, foreign, key))
    (h : (b.change foreign (.addData key)).accept (.finished (.association a)) = .ok b') :
    Drawn ds' b' foreign x (keys ++ [key]) := by
  obtain ⟨y, hy, hfresh⟩ := Definition.exists_fresh_of_toSimple hs
  obtain rfl := hdrawn.eq_addAll hy
  have hkey := List.mem_singleton.2 (rfl : key = key)
  obtain ⟨target, hrole⟩ := hfresh.foreign key hkey
  refine ⟨?_, ?_, ?_, ?_⟩
  · obtain ⟨d, hd, c, hs, hc⟩ := hdrawn.taken
    exact ⟨d, hds hd, c, hs, hc.trans hg⟩
  · refine hdrawn.fresh.concat hrole ?_
    exact EntityDraft.hasAttribute_eq_false_iff.2 (hfresh.free key hkey)
  · left
    rw [Workbench.slot?_related hy h, if_neg (Workbench.get?_eq_none_of_related hy h).2.symm,
      if_pos rfl, EntityDraft.addAll_addData]
  · intro k hk
    rcases List.mem_append.1 hk with hk | hk
    · obtain ⟨a', ha'⟩ := hdrawn.kept k hk
      exact ⟨a', ha'.mono hg⟩
    · rw [List.mem_singleton.1 hk]
      exact ⟨a, (keeps_of_related hs hy h).2 (.inl ⟨rfl, rfl, rfl⟩)⟩

/-- A draft is published with the keys that it has got. -/
theorem of_freeze {n : Notebook} (h : Drawn ds b name x keys) (hf : b.freeze = .ok n) :
    Drawn ds (.start n) name x keys := by
  have hpreview := Workbench.preview_start_of_freeze hf
  refine ⟨?_, h.fresh, .inr ?_, ?_⟩
  · rw [hpreview]
    exact h.taken
  · rw [(Workbench.eq_preview_of_freeze hf).1]
    exact h.get?_preview
  · rw [hpreview]
    exact h.kept

end Run.Drawn

/-- Every entity definition that is not that of the prior notebook comes from a draft. -/
def Run.Traced (p : Notebook) (ds : List Definition) (b : Workbench) : Prop :=
  ∀ name e, b.preview.get? name = some (.entityDefinition e) →
    p.get? name = some (.entityDefinition e) ∨ ∃ x keys, Drawn ds b name x keys

theorem Run.traced_of_supplied {p : Notebook} {ds : List Definition} {b b' : Workbench}
    {d : Definition} (hrun : Run p ds b) (h : b.Supplied d b') (ht : Traced p ds b) :
    Traced p (ds ++ [d]) b' := by
  intro name e he
  have hg := h.grows hrun.buildable
  have hds : ds ⊆ ds ++ [d] := List.subset_append_left ds [d]
  have hd : d ∈ ds ++ [d] := List.mem_append_right ds (List.mem_singleton.2 rfl)
  -- What was there under another name than those written to stays as it was drawn.
  have hold : b.preview.get? name = some (.entityDefinition e) → b'.slot? name = b.slot? name →
      p.get? name = some (.entityDefinition e) ∨ ∃ x keys, Drawn (ds ++ [d]) b' name x keys := by
    intro he hslot
    refine (ht name e he).imp_right ?_
    rintro ⟨x, keys, hx⟩
    exact ⟨x, keys, hx.mono hds hg hslot h.prior⟩
  cases h with
  | provided => exact hold he rfl
  | @taken s _ hbecomes h =>
    rw [Workbench.get?_preview_accept h] at he
    split at he
    · next hn =>
      cases s with
      | finished s =>
        cases he
        cases hbecomes
      | draft x => exact .inr ⟨x, [], hn ▸ .of_taken hbecomes hd hg h⟩
    · next hn => exact hold he (by rw [Workbench.slot?_accept h, if_neg hn])
  | related _ hsimple h =>
    obtain ⟨y, hy, -⟩ := Definition.exists_fresh_of_toSimple hsimple
    rw [Workbench.get?_preview_related hy h] at he
    split at he
    · cases he
    · next hna =>
      split at he
      · next hn =>
        subst hn
        rcases ht name _ (Workbench.get?_preview_of_slot hy) with hp | ⟨x, keys, hx⟩
        · rw [Workbench.slot?_eq_none_of_prior (hrun.get?_prior hp)] at hy
          cases hy
        · exact .inr ⟨x, _, hx.of_related hds hg hsimple h⟩
      · next hn => exact hold he (by rw [Workbench.slot?_related hy h, if_neg hna, if_neg hn])

theorem Run.traced {p : Notebook} {ds : List Definition} {b : Workbench} (h : Run p ds b) :
    Traced p ds b := by
  induction h with
  | start =>
    intro name e he
    rw [Workbench.preview_start] at he
    exact .inl he
  | supply hrun hs ih => exact hrun.traced_of_supplied (Workbench.supplied_of_supply hs) ih
  | freeze _ hf ih =>
    intro name e he
    rw [Workbench.preview_start_of_freeze hf] at he
    refine (ih name e he).imp_right ?_
    rintro ⟨x, keys, hx⟩
    exact ⟨x, keys, hx.of_freeze hf⟩

/-! ## Agreement -/

/-- The sketches are the same, except that foreign keys which associations of the notebook add may
stand in another order. -/
inductive Sketch.SameUpToKeys (n : Notebook) : Sketch → Sketch → Prop
  | same (s : Sketch) : SameUpToKeys n s s
  | definition (e : EntityDefinition) {front keys keys' back : List Attribute}
    (perm : keys.Perm keys') (contributed : ∀ k ∈ keys, n.Contributed e.name k) :
    SameUpToKeys n (.entityDefinition { e with attributes := front ++ keys ++ back })
      (.entityDefinition { e with attributes := front ++ keys' ++ back })

/-- The notebooks have the same names, and under each name the same sketch but for the order of
foreign keys that associations add. -/
structure Notebook.Agrees (n m : Notebook) : Prop where
  names : ∀ name, name ∈ n.names ↔ name ∈ m.names
  sketches : ∀ name s t, n.get? name = some s → m.get? name = some t → s.SameUpToKeys n t

/-- If a draft with some keys grows into the same draft with others, the others have them. -/
theorem EntityDraft.subset_of_grows {x : EntityDraft} {keys keys' : List DataDraft}
    (hx : x.violations = []) (hk : x.Fresh keys) (hk' : x.Fresh keys')
    (h : (x.addAll keys).finished.Grows (x.addAll keys').finished) :
    keys.map (DataDraft.attribute x.effectiveStereotype.isPersistent) ⊆
      keys'.map (DataDraft.attribute x.effectiveStereotype.isPersistent) := by
  intro a ha
  obtain ⟨k, hkm, rfl⟩ := List.mem_map.1 ha
  have hfound := h.attributes _ _ (attribute?_addAll hx hk hkm)
  rw [attribute?_finished (violations_addAll_eq_nil hx hk'), mem_attributes_addAll] at hfound
  rcases hfound.1 with hold | hnew
  · refine absurd ?_ (hk.free k hkm)
    rw [← names_attributes, ← DataDraft.name_attribute]
    exact List.mem_map_of_mem hold
  · exact hnew

theorem EntityDraft.Fresh.nodup_attributes {x : EntityDraft} {keys : List DataDraft}
    (h : x.Fresh keys) (persistent : Bool) :
    (keys.map (DataDraft.attribute persistent)).Nodup := by
  refine .of_map Attribute.name ?_
  simpa [List.map_map, Function.comp_def] using h.nodup

/-- Two drafts that differ in the keys they have got, and grow into each other, have got the same
keys. -/
theorem EntityDraft.perm_of_grows {x : EntityDraft} {keys keys' : List DataDraft}
    (hx : x.violations = []) (hk : x.Fresh keys) (hk' : x.Fresh keys')
    (h : (x.addAll keys).finished.Grows (x.addAll keys').finished)
    (h' : (x.addAll keys').finished.Grows (x.addAll keys).finished) :
    (keys.map (DataDraft.attribute x.effectiveStereotype.isPersistent)).Perm
      (keys'.map (DataDraft.attribute x.effectiveStereotype.isPersistent)) := by
  rw [List.perm_ext_iff_of_nodup (hk.nodup_attributes _) (hk'.nodup_attributes _)]
  intro a
  exact ⟨fun ha => subset_of_grows hx hk hk' h ha, fun ha => subset_of_grows hx hk' hk h' ha⟩

theorem Run.Drawn.contributed {ds : List Definition} {b : Workbench} {name : String}
    {x : EntityDraft} {keys : List DataDraft} (h : Drawn ds b name x keys) (persistent : Bool) :
    ∀ a ∈ keys.map (DataDraft.attribute persistent), b.preview.Contributed name a := by
  intro a ha
  obtain ⟨k, hk, rfl⟩ := List.mem_map.1 ha
  obtain ⟨target, hrole⟩ := h.fresh.foreign k hk
  obtain ⟨c, hc⟩ := h.kept k hk
  exact ⟨⟨target, DataDraft.kind_attribute_eq_foreignKey_iff.2 hrole⟩, c,
    by rwa [DataDraft.name_attribute]⟩

namespace Run

variable {p : Notebook} {ds ds' : List Definition} {b b' : Workbench}

/-- What stands under one name in two runs through the same definitions was taken on as the same
draft. -/
theorem Drawn.eq_draft (h : Run p ds b) (hp : ds.Perm ds')
    (hg : b.preview.Grows b'.preview) {name : String} {x x' : EntityDraft}
    {keys keys' : List DataDraft} (hx : Drawn ds b name x keys)
    (hx' : Drawn ds' b' name x' keys') : x = x' := by
  obtain ⟨d, hd, hkey, c, hs, hc⟩ := hx.exists_definition
  obtain ⟨d', hd', hkey', c', hs', hc'⟩ := hx'.exists_definition
  obtain rfl : d = d' := by
    refine List.inj_on_of_nodup_map h.nodup_keys_sketched ?_ ?_ (hkey.trans hkey'.symm)
    · exact mem_sketched.2 ⟨hd, hs.kind_ne_dataType⟩
    · exact mem_sketched.2 ⟨hp.mem_iff.2 hd', hs'.kind_ne_dataType⟩
  exact Slot.draft.inj (hs.congr (hc.trans hg) hc' hs')

/-- Runs through the same definitions agree. -/
theorem agrees (h : Run p ds b) (h' : Run p ds' b') (hp : ds.Perm ds') :
    b.preview.Agrees b'.preview := by
  have hg : b.preview.Grows b'.preview := h.grows_of_subset h' hp.subset
  have hg' : b'.preview.Grows b.preview := h'.grows_of_subset h hp.symm.subset
  refine ⟨?_, ?_⟩
  · intro name
    rw [h.names, h'.names]
    exact ((((hp.filter _).map _).append_left _).mem_iff)
  · intro name s t hs ht
    obtain ⟨t', ht', hst⟩ := hg name s hs
    obtain rfl : t' = t := Option.some.inj (ht'.symm.trans ht)
    cases hst with
    | same => exact .same s
    | @definition e e' hee =>
      obtain ⟨_, hs', hee'⟩ := hg'.definition ht
      obtain rfl : e = _ := Sketch.entityDefinition.inj (Option.some.inj (hs.symm.trans hs'))
      -- A sketch of the prior notebook stands in both results as it was.
      have hprior : p.get? name = some (.entityDefinition e) ∨
          p.get? name = some (.entityDefinition e') → e = e' := by
        rintro (hq | hq)
        · have := Workbench.get?_preview_of_prior (h'.get?_prior hq)
          exact Sketch.entityDefinition.inj (Option.some.inj (this.symm.trans ht))
        · have := Workbench.get?_preview_of_prior (h.get?_prior hq)
          exact Sketch.entityDefinition.inj (Option.some.inj (hs.symm.trans this))
      rcases h.traced name _ hs with hq | ⟨x, keys, hx⟩
      · obtain rfl := hprior (.inl hq)
        exact .same _
      rcases h'.traced name _ ht with hq | ⟨x', keys', hx'⟩
      · obtain rfl := hprior (.inr hq)
        exact .same _
      obtain rfl := Drawn.eq_draft h hp hg hx hx'
      obtain rfl := Sketch.entityDefinition.inj (Option.some.inj (hs.symm.trans hx.get?_preview))
      obtain rfl := Sketch.entityDefinition.inj (Option.some.inj (ht.symm.trans hx'.get?_preview))
      have hname : x.finished.name = name := Notebook.name_of_get? hx.get?_preview
      have hperm := EntityDraft.perm_of_grows hx.violations hx.fresh hx'.fresh hee hee'
      have hcontributed := hx.contributed x.effectiveStereotype.isPersistent
      rw [← hname] at hcontributed
      rw [EntityDraft.finished_addAll, EntityDraft.finished_addAll]
      exact .definition x.finished hperm hcontributed

end Run

end Metamodel
