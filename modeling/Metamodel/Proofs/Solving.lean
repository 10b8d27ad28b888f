import Metamodel.Proofs.LinkOrder
import Metamodel.Proofs.Lookup
import Metamodel.Repository.Basic

set_option autoImplicit false

/-! # What solving a repository gives

Merging goes through the queue of alterations and changes one stored definition at a time. As keys
are distinct, the outcome can be said for each definition on its own: it is changed by the
alterations of its key, in their order (`Repository.amended`, `merged_eq_ok`). Solving then only
orders the definitions and drops those that are provided (`perm_of_solve`). -/

namespace Metamodel

/-- Among distinct names, changing the thing of a name is changing it wherever it stands. -/
theorem Named.modify_eq_map {α : Type} [Named α] {xs : List α} (hd : (names xs).Nodup)
    (n : String) (f : α → α) :
    modify n f xs = xs.map fun x => if nameOf x = n then f x else x := by
  induction xs with
  | nil => rfl
  | cons x xs ih =>
    obtain ⟨hx, hd⟩ := List.nodup_cons.1 hd
    by_cases hn : nameOf x = n
    · -- Nothing behind `x` has its name.
      have hrest : xs.map (fun y => if nameOf y = n then f y else y) = xs.map id := by
        refine List.map_congr_left fun y hy => if_neg ?_
        intro hy'
        exact hx (hn.trans hy'.symm ▸ List.mem_map_of_mem hy)
      simp only [modify, if_pos hn, List.map_cons, hrest, List.map_id]
    · simp only [modify, if_neg hn, List.map_cons, ih hd]

namespace Repository

/-- The definition changed by those of some alterations that are of its key, in their order. -/
def amended (changes : List Definition) (d : Definition) : Definition :=
  changes.foldl (fun d c => if c.key = d.key then d.merge c else d) d

theorem amended_cons (c : Definition) (changes : List Definition) (d : Definition) :
    amended (c :: changes) d = amended changes (amended [c] d) := rfl

theorem amended_append (changes more : List Definition) (d : Definition) :
    amended (changes ++ more) d = amended more (amended changes d) :=
  List.foldl_append

/-- Alterations keep the key. -/
@[simp] theorem key_amended (changes : List Definition) (d : Definition) :
    (amended changes d).key = d.key := by
  induction changes generalizing d with
  | nil => rfl
  | cons c changes ih =>
    rw [amended_cons, ih]
    simp only [amended, List.foldl_cons, List.foldl_nil]
    split <;> rfl

/-- Alterations keep the entity. -/
@[simp] theorem entity_amended (changes : List Definition) (d : Definition) :
    (amended changes d).entity = d.entity := by
  induction changes generalizing d with
  | nil => rfl
  | cons c changes ih =>
    rw [amended_cons, ih]
    simp only [amended, List.foldl_cons, List.foldl_nil]
    split <;> rfl

/-- Alterations of other keys do not matter. -/
theorem amended_of_forall_ne {changes : List Definition} {d : Definition}
    (h : ∀ c ∈ changes, c.key ≠ d.key) : amended changes d = d := by
  induction changes with
  | nil => rfl
  | cons c changes ih =>
    have hc : amended [c] d = d := if_neg (h c List.mem_cons_self)
    rw [amended_cons, hc, ih fun e he => h e (List.mem_cons_of_mem _ he)]

theorem keys_map_amended (changes ds : List Definition) :
    Definition.keys (ds.map (amended changes)) = Definition.keys ds := by
  simp only [Named.names, List.map_map]
  exact List.map_congr_left fun d _ => key_amended changes d

/-- An alteration that can be merged: a definition of its key is there, of the same entity. -/
def Fits (ds : List Definition) (c : Definition) : Prop :=
  ∃ d ∈ ds, d.key = c.key ∧ d.entity.name = c.entity.name

/-- Alterations before it do not decide whether one fits. -/
theorem fits_map_amended {changes ds : List Definition} {c : Definition} :
    Fits (ds.map (amended changes)) c ↔ Fits ds c := by
  simp [Fits]

theorem Fits.mem_keys {ds : List Definition} {c : Definition} (h : Fits ds c) :
    c.key ∈ Definition.keys ds := by
  obtain ⟨d, hd, hkey, -⟩ := h
  exact hkey ▸ List.mem_map_of_mem hd

theorem mergeOne_eq_ok {ds ds' : List Definition} {c : Definition}
    (hd : (Definition.keys ds).Nodup) :
    mergeOne ds c = .ok ds' ↔ Fits ds c ∧ ds' = ds.map (amended [c]) := by
  have hmodify : Named.modify c.key (·.merge c) ds = ds.map (amended [c]) := by
    rw [Named.modify_eq_map hd]
    exact List.map_congr_left fun d _ => if_congr eq_comm rfl rfl
  unfold mergeOne
  cases hbase : Named.get? ds c.key with
  | none =>
    refine iff_of_false (by simp) ?_
    rintro ⟨h, -⟩
    exact Named.get?_eq_none_iff.1 hbase h.mem_keys
  | some base =>
    have hfits : Fits ds c ↔ base.entity.name = c.entity.name := by
      constructor
      · rintro ⟨d, hm, hkey, hentity⟩
        obtain rfl : base = d := List.inj_on_of_nodup_map hd (Named.mem_of_get? hbase) hm
          ((Named.nameOf_get? hbase).trans hkey.symm)
        exact hentity
      · exact fun h => ⟨base, Named.mem_of_get? hbase, Named.nameOf_get? hbase, h⟩
    dsimp only
    rw [hmodify, hfits, eq_comm (a := ds')]
    by_cases he : base.entity.name = c.entity.name <;> simp [he]

theorem foldlM_mergeOne_eq_ok {ds ds' changes : List Definition}
    (hd : (Definition.keys ds).Nodup) :
    changes.foldlM mergeOne ds = .ok ds' ↔
      (∀ c ∈ changes, Fits ds c) ∧ ds' = ds.map (amended changes) := by
  induction changes generalizing ds with
  | nil =>
    have hmap : ds.map (amended []) = ds := List.map_id _
    rw [List.foldlM_nil, pure_eq_ok, hmap, eq_comm]
    simp
  | cons c changes ih =>
    -- Merging keeps the keys, so those of the rest are distinct.
    have hd' : (Definition.keys (ds.map (amended [c]))).Nodup := by rwa [keys_map_amended]
    have hmap : ds.map (amended (c :: changes)) =
        (ds.map (amended [c])).map (amended changes) := by
      rw [List.map_map]
      rfl
    simp only [List.foldlM_cons, bind_eq_ok, mergeOne_eq_ok hd, List.forall_mem_cons, hmap]
    constructor
    · rintro ⟨_, ⟨hc, rfl⟩, h⟩
      obtain ⟨hcs, rfl⟩ := (ih hd').1 h
      exact ⟨⟨hc, fun e he => fits_map_amended.1 (hcs e he)⟩, rfl⟩
    · rintro ⟨⟨hc, hcs⟩, rfl⟩
      exact ⟨_, ⟨hc, rfl⟩, (ih hd').2 ⟨fun e he => fits_map_amended.2 (hcs e he), rfl⟩⟩

/-- Merging succeeds if every alteration fits, and changes each definition by those of its key. -/
theorem merged_eq_ok {r : Repository} {ds : List Definition}
    (hd : (Definition.keys r.definitions).Nodup) :
    r.merged = .ok ds ↔
      (∀ c ∈ r.alterations, Fits r.definitions c) ∧
        ds = r.definitions.map (amended r.alterations) :=
  foldlM_mergeOne_eq_ok hd

/-- What a successful solution consists of. -/
theorem solve_eq_ok {r : Repository} {prior : Notebook} {ds : List Definition}
    (hd : (Definition.keys r.definitions).Nodup) :
    r.solve prior = .ok ds ↔
      (∀ c ∈ r.alterations, Fits r.definitions c) ∧
      (∀ d ∈ r.definitions.map (amended r.alterations), d.checkLinkFields = .ok ()) ∧
      ∃ ordered, Definition.order (r.isExternal prior)
          (r.definitions.map (amended r.alterations)) = .ok ordered ∧
        (∀ d ∈ ordered, d.check = .ok ()) ∧ ds = ordered.filter (!·.entity.isProvided) := by
  simp only [solve, bind_eq_ok, mapError_eq_ok, pure_eq_ok, merged_eq_ok hd, forM_eq_ok]
  constructor
  · rintro ⟨_, ⟨hfits, rfl⟩, _, hlinks, ordered, ho, _, hchecks, rfl⟩
    exact ⟨hfits, hlinks, ordered, ho, hchecks, rfl⟩
  · rintro ⟨hfits, hlinks, ordered, ho, hchecks, rfl⟩
    exact ⟨_, ⟨hfits, rfl⟩, (), hlinks, ordered, ho, (), hchecks, rfl⟩

/-- The definitions to construct: those that are stored and not provided, with their
alterations. -/
def constructed (r : Repository) : List Definition :=
  (r.definitions.map (amended r.alterations)).filter (!·.entity.isProvided)

theorem mem_constructed {r : Repository} {e : Definition} :
    e ∈ r.constructed ↔
      ∃ d ∈ r.definitions, d.entity.isProvided = false ∧ amended r.alterations d = e := by
  simp only [constructed, List.mem_filter, List.mem_map, Bool.not_eq_true']
  constructor
  · rintro ⟨⟨d, hd, rfl⟩, hp⟩
    rw [entity_amended] at hp
    exact ⟨d, hd, hp, rfl⟩
  · rintro ⟨d, hd, hp, rfl⟩
    exact ⟨⟨d, hd, rfl⟩, by rwa [entity_amended]⟩

theorem keys_constructed (r : Repository) :
    Definition.keys r.constructed =
      Definition.keys (r.definitions.filter (!·.entity.isProvided)) := by
  simp only [constructed, List.filter_map, keys_map_amended, Function.comp_def, entity_amended]

/-- Solving only puts the definitions to construct into an order. -/
theorem perm_of_solve {r : Repository} {prior : Notebook} {ds : List Definition}
    (hd : (Definition.keys r.definitions).Nodup) (h : r.solve prior = .ok ds) :
    (∀ c ∈ r.alterations, c.key ∈ Definition.keys r.definitions) ∧ ds.Perm r.constructed := by
  obtain ⟨hfits, -, ordered, hordered, -, rfl⟩ := (solve_eq_ok hd).1 h
  exact ⟨fun c hc => (hfits c hc).mem_keys,
    (Definition.perm_and_targetsFirst_of_order _ hordered).1.filter _⟩

/-- What is solved has the keys of the definitions that are stored and not provided. -/
theorem keys_perm_of_solve {r : Repository} {prior : Notebook} {ds : List Definition}
    (hd : (Definition.keys r.definitions).Nodup) (h : r.solve prior = .ok ds) :
    (Definition.keys ds).Perm
      (Definition.keys (r.definitions.filter (!·.entity.isProvided))) := by
  rw [← keys_constructed]
  exact (perm_of_solve hd h).2.map _

theorem nodup_keys_of_solve {r : Repository} {prior : Notebook} {ds : List Definition}
    (hd : (Definition.keys r.definitions).Nodup) (h : r.solve prior = .ok ds) :
    (Definition.keys ds).Nodup :=
  (keys_perm_of_solve hd h).nodup_iff.2 (hd.sublist (List.filter_sublist.map _))

end Repository

end Metamodel
