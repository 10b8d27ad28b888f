import Metamodel.Proofs.Filling

set_option autoImplicit false

/-! # Solutions and the order of filling

Whether a repository can be solved, and what there is to construct, depends on its contents alone.
Merging goes by keys, links are resolved and free of cycles whatever order the definitions stand in,
and each definition is checked for itself. So repositories of the same contents are solved together,
to the same definitions (`exists_perm_of_solve`); with the definitions in one order the solutions
are the same (`solve_congr`).

The order of the solutions may differ, but in each of them a definition stands behind those among
them that it links to (`linksBackward_of_solve`). -/

namespace Metamodel

namespace Definition

open Relation

variable (isExternal : String → Bool) {ds ds' : List Definition}

/-! ## Links of rearranged definitions -/

theorem resolved_of_perm (hp : ds.Perm ds') (h : Resolved isExternal ds) :
    Resolved isExternal ds' := by
  intro d hd name hl
  exact (h d (hp.mem_iff.2 hd) name hl).imp_right (hp.map key).mem_iff.1

theorem needs_of_perm (hp : ds.Perm ds') {key target : String}
    (h : Needs isExternal ds key target) : Needs isExternal ds' key target := by
  obtain ⟨ht, he, d, hd, hkey, hl⟩ := h
  exact ⟨(hp.map Definition.key).mem_iff.1 ht, he, d, hp.mem_iff.1 hd, hkey, hl⟩

theorem acyclic_of_perm (hp : ds.Perm ds') (h : Acyclic isExternal ds) :
    Acyclic isExternal ds' := by
  intro key hcycle
  have hneeds : Needs isExternal ds' ≤ Needs isExternal ds :=
    fun _ _ => needs_of_perm isExternal hp.symm
  exact h key (TransGen.mono hneeds key key hcycle)

/-- What has an order links to nothing that does not exist. -/
theorem resolved_of_order {out : List Definition} (h : order isExternal ds = .ok out) :
    Resolved isExternal ds := by
  rw [← orphans_eq_nil_iff]
  unfold order orderBy at h
  split at h
  · cases h
  · assumption

theorem acyclic_of_order (hd : (keys ds).Nodup) {out : List Definition}
    (h : order isExternal ds = .ok out) : Acyclic isExternal ds := by
  obtain ⟨hp, hfirst⟩ := perm_and_targetsFirst_of_order isExternal h
  exact acyclic_of_targetsFirst isExternal hp hd hfirst

theorem exists_order (hr : Resolved isExternal ds) (ha : Acyclic isExternal ds) :
    ∃ out, order isExternal ds = .ok out := by
  rw [order, orderBy, (orphans_eq_nil_iff isExternal).2 hr]
  obtain ⟨out, ho, -⟩ | ⟨done, stuck, -, hp, hne, hstuck⟩ :=
    passes_cases isExternal Graph.components ds (targetsFirst_nil isExternal)
  · exact ⟨out, ho⟩
  · exact absurd ha (not_acyclic_of_stuck isExternal hp hr hne hstuck)

/-- Rearranged definitions have an order if the definitions have one. -/
theorem exists_order_of_perm (hp : ds.Perm ds') (hd : (keys ds).Nodup) {out : List Definition}
    (h : order isExternal ds = .ok out) :
    ∃ out', order isExternal ds' = .ok out' ∧ out'.Perm out := by
  have hr := resolved_of_perm isExternal hp (resolved_of_order isExternal h)
  have ha := acyclic_of_perm isExternal hp (acyclic_of_order isExternal hd h)
  obtain ⟨out', ho⟩ := exists_order isExternal hr ha
  have hout := (perm_and_targetsFirst_of_order isExternal h).1
  have hout' := (perm_and_targetsFirst_of_order isExternal ho).1
  exact ⟨out', ho, hout'.trans (hp.symm.trans hout.symm)⟩

/-! ## Links lead backward -/

/-- A definition stands behind those of the list that it links to. -/
def LinksBackward (ds : List Definition) : Prop :=
  ∀ before d after, ds = before ++ d :: after →
    ∀ name, d.LinksTo name → name ∈ keys ds → name ∈ keys before

/-- What is left of an order still has its links lead backward, if none of it counts as outside. -/
theorem TargetsFirst.linksBackward_filter (h : TargetsFirst isExternal ds) (hd : (keys ds).Nodup)
    (hin : ∀ name ∈ keys ds, isExternal name = false) (p : Definition → Bool) :
    LinksBackward (ds.filter p) := by
  intro before d after hsplit name hl hname
  obtain ⟨front, back, rfl, rfl, hback⟩ := List.filter_eq_append_iff.1 hsplit
  obtain ⟨skipped, rest, rfl, hskipped, -, -⟩ := List.filter_eq_cons_iff.1 hback
  obtain ⟨target, htarget, rfl⟩ := List.mem_map.1 hname
  obtain ⟨hmem, hkept⟩ := List.mem_filter.1 htarget
  have hplace := h (front ++ skipped) d rest (by simp) target.key hl
    (hin _ (List.mem_map_of_mem hmem))
  -- The one definition of that key stands before `d`, so what is left of it does.
  obtain ⟨found, hfound, hkey⟩ := List.mem_map.1 hplace
  have hfound' : found ∈ front ++ (skipped ++ d :: rest) := by
    rw [← List.append_assoc]
    exact List.mem_append_left _ hfound
  obtain rfl := List.inj_on_of_nodup_map hd hfound' hmem hkey
  rcases List.mem_append.1 hfound with hfront | hdropped
  · exact List.mem_map_of_mem (List.mem_filter.2 ⟨hfront, hkept⟩)
  · exact absurd hkept (hskipped _ hdropped)

end Definition

namespace Repository

variable {r r' : Repository} {prior : Notebook} {ds : List Definition}

/-! ## Alterations of one key -/

/-- Only the alterations of its key count for a definition. -/
theorem amended_eq_foldl (changes : List Definition) (d : Definition) :
    amended changes d = (changes.filter (·.key = d.key)).foldl Definition.merge d := by
  induction changes generalizing d with
  | nil => rfl
  | cons c changes ih =>
    rw [amended_cons, ih]
    by_cases hc : c.key = d.key
    · have hmerge : amended [c] d = d.merge c := if_pos hc
      have hkey : (d.merge c).key = d.key := rfl
      rw [hmerge, List.filter_cons_of_pos (by simpa using hc), List.foldl_cons, hkey]
    · have hsame : amended [c] d = d := if_neg hc
      rw [hsame, List.filter_cons_of_neg (by simpa using hc)]

namespace SameContents

theorem amended_eq (h : r.SameContents r') : amended r.alterations = amended r'.alterations := by
  funext d
  rw [amended_eq_foldl, amended_eq_foldl, h.alterations]

theorem fits (h : r.SameContents r') (hfits : ∀ c ∈ r.alterations, Fits r.definitions c) :
    ∀ c ∈ r'.alterations, Fits r'.definitions c := by
  intro c hc
  obtain ⟨d, hd, hfit⟩ := hfits c (h.mem_alterations.2 hc)
  exact ⟨d, h.definitions.mem_iff.1 hd, hfit⟩

end SameContents

/-! ## Solutions -/

theorem keys_amended_definitions (r : Repository) :
    Definition.keys (r.definitions.map (amended r.alterations)) = Definition.keys r.definitions :=
  keys_map_amended _ _

/-- Nothing that is stored counts as outside. -/
theorem isExternal_eq_false {name : String} (h : name ∈ Definition.keys r.definitions) :
    r.isExternal prior name = false := by
  have hcontains : r.contains name = true := Named.has_iff.2 h
  simp [isExternal, hcontains]

/-- In a solution, links lead backward. -/
theorem linksBackward_of_solve (hd : (Definition.keys r.definitions).Nodup)
    (h : r.solve prior = .ok ds) : Definition.LinksBackward ds := by
  obtain ⟨-, -, ordered, ho, -, rfl⟩ := (solve_eq_ok hd).1 h
  obtain ⟨hp, hfirst⟩ := Definition.perm_and_targetsFirst_of_order _ ho
  have hkeys : (Definition.keys ordered).Perm (Definition.keys r.definitions) := by
    rw [← keys_amended_definitions]
    exact hp.map _
  exact hfirst.linksBackward_filter _ (hkeys.nodup_iff.2 hd)
    (fun name hname => isExternal_eq_false (hkeys.mem_iff.1 hname)) _

/-- Repositories of the same contents are solved together, to the same definitions. -/
theorem exists_perm_of_solve (hd : (Definition.keys r.definitions).Nodup)
    (hsame : r.SameContents r') (h : r.solve prior = .ok ds) :
    ∃ ds', r'.solve prior = .ok ds' ∧ ds'.Perm ds := by
  have hd' := hsame.nodup_keys hd
  obtain ⟨hfits, hlinks, ordered, ho, hchecks, rfl⟩ := (solve_eq_ok hd).1 h
  have hmerged := hsame.definitions.map (amended r.alterations)
  rw [← keys_amended_definitions] at hd
  obtain ⟨ordered', ho', hp⟩ := Definition.exists_order_of_perm _ hmerged hd ho
  rw [hsame.amended_eq, hsame.isExternal] at ho'
  rw [hsame.amended_eq] at hlinks hmerged
  refine ⟨_, (solve_eq_ok hd').2 ⟨hsame.fits hfits, ?_, ordered', ho', ?_, rfl⟩, hp.filter _⟩
  · exact fun d hm => hlinks d (hmerged.mem_iff.2 hm)
  · exact fun d hm => hchecks d (hp.mem_iff.1 hm)

/-- With the definitions in one order, the solutions are the same. -/
theorem solve_congr (hd : (Definition.keys r.definitions).Nodup) (hsame : r.SameContents r')
    (hdefinitions : r.definitions = r'.definitions) (h : r.solve prior = .ok ds) :
    r'.solve prior = .ok ds := by
  obtain ⟨hfits, hlinks, hordered⟩ := (solve_eq_ok hd).1 h
  rw [hsame.amended_eq, hdefinitions] at hlinks hordered
  rw [hsame.isExternal] at hordered
  exact (solve_eq_ok (hsame.nodup_keys hd)).2 ⟨hsame.fits hfits, hlinks, hordered⟩

end Repository

end Metamodel
