import Metamodel.Proofs.SolutionOrder

set_option autoImplicit false

/-! # The phases of solving

Solving a repository asks five things of it, one after the other: that the alterations fit, that
links stand in link fields, that they lead somewhere, that they do not lead in a circle, and that
the definitions conform. `Phase.Holds` says each of them without the passes that check it, and
`Phase.Reports` which errors belong to it. A repository is solved if all of them hold, and otherwise
the first that fails decides the error (`solve_by_phases`).

For links in a circle it does not matter that a name is declared or is in the prior notebook if it is
stored as well: what is stored never counts as outside (`acyclic_iff_storedAcyclic`). -/

namespace Metamodel

namespace Definition

open Relation

/-! ## Links in the wrong place -/

/-- The definition, or one nested in it, fills a field with links that is no link field of its
entity. Definitions of provided entities are not looked into. -/
inductive HasMisplacedLink : Definition → Prop
  | own {d : Definition} {l : String × List String} (hp : d.entity.isProvided = false)
    (hl : l ∈ d.links) (hf : ∀ f, d.entity.field? l.1 = some f → f.shape.role ≠ .link) :
    HasMisplacedLink d
  | nested {d c : Definition} {e : String × List Definition} (hp : d.entity.isProvided = false)
    (he : e ∈ d.children) (hc : c ∈ e.2) (h : HasMisplacedLink c) : HasMisplacedLink d

theorem linkPlaceFaults_ne_nil {d : Definition} {field : String} :
    d.linkPlaceFaults field ≠ [] ↔ ∀ f, d.entity.field? field = some f → f.shape.role ≠ .link := by
  unfold linkPlaceFaults
  cases d.entity.field? field with
  | none => simp
  | some f => cases hshape : f.shape <;> simp [hshape, Shape.role]

theorem misplacedLinks_ne_nil {d : Definition} : d.misplacedLinks ≠ [] ↔ d.HasMisplacedLink := by
  constructor
  · induction d using misplacedLinks.induct with
    | case1 d hp => simp [misplacedLinks, hp]
    | case2 d hp ih =>
      intro h
      rw [misplacedLinks, if_neg hp, ne_eq, List.append_eq_nil_iff, not_and_or,
        List.flatMap_eq_nil_iff, List.flatMap_eq_nil_iff] at h
      push Not at h
      rw [Bool.not_eq_true] at hp
      rcases h with ⟨l, hl, hf⟩ | ⟨e, he, hne⟩
      · exact .own hp hl (linkPlaceFaults_ne_nil.1 hf)
      · rw [ne_eq, List.flatMap_eq_nil_iff] at hne
        push Not at hne
        obtain ⟨c, hc, hne⟩ := hne
        exact .nested hp he hc (ih e he c hc hne)
  · intro h
    induction h with
    | own hp hl hf =>
      rw [misplacedLinks, if_neg (by simp [hp])]
      intro hnil
      rw [List.append_eq_nil_iff, List.flatMap_eq_nil_iff] at hnil
      exact linkPlaceFaults_ne_nil.2 hf (hnil.1 _ hl)
    | nested hp he hc _ ih =>
      rw [misplacedLinks, if_neg (by simp [hp])]
      intro hnil
      rw [List.append_eq_nil_iff, List.flatMap_eq_nil_iff, List.flatMap_eq_nil_iff] at hnil
      exact ih (List.flatMap_eq_nil_iff.1 (hnil.2 _ he) _ hc)

/-- What is reported of a misplaced link: the field is unknown or no link field. -/
theorem fault_of_mem_misplacedLinks {d : Definition} {f : Fault} (h : f ∈ d.misplacedLinks) :
    (∃ key entity field, f = .unknownField key entity field) ∨
      ∃ key field declared, f = .wrongRole key field .link declared := by
  induction d using misplacedLinks.induct with
  | case1 d hp => simp [misplacedLinks, hp] at h
  | case2 d hp ih =>
    rw [misplacedLinks, if_neg hp, List.mem_append] at h
    rcases h with h | h
    · obtain ⟨l, -, h⟩ := List.mem_flatMap.1 h
      unfold linkPlaceFaults at h
      split at h
      · obtain rfl := List.mem_singleton.1 h
        exact .inl ⟨_, _, _, rfl⟩
      · split at h
        · cases h
        · obtain rfl := List.mem_singleton.1 h
          exact .inr ⟨_, _, _, rfl⟩
    · obtain ⟨e, he, h⟩ := List.mem_flatMap.1 h
      obtain ⟨c, hc, h⟩ := List.mem_flatMap.1 h
      exact ih e he c hc h

theorem reportFirst_eq_ok {fs : List Fault} {u : Unit} : reportFirst fs = .ok u ↔ fs = [] := by
  cases fs <;> simp [reportFirst]

theorem mem_of_reportFirst_eq_error {fs : List Fault} {f : Fault} (h : reportFirst fs = .error f) :
    f ∈ fs := by
  cases fs with
  | nil => cases h
  | cons g gs =>
    cases h
    exact List.mem_cons_self

theorem checkLinkFields_eq_ok {d : Definition} :
    d.checkLinkFields = .ok () ↔ ¬d.HasMisplacedLink := by
  rw [checkLinkFields, reportFirst_eq_ok, ← misplacedLinks_ne_nil, not_not]

/-! ## Links between stored definitions -/

/-- One of the definitions links to another one of them. -/
def LinksWithin (ds : List Definition) (key target : String) : Prop :=
  target ∈ keys ds ∧ ∃ d ∈ ds, d.key = key ∧ d.LinksTo target

/-- No definition leads back to itself by the links among them. -/
def StoredAcyclic (ds : List Definition) : Prop := ∀ key, ¬TransGen (LinksWithin ds) key key

/-- If none of the definitions counts as outside, all links among them ask for an order. -/
theorem acyclic_iff_storedAcyclic {isExternal : String → Bool} {ds : List Definition}
    (hin : ∀ name ∈ keys ds, isExternal name = false) :
    Acyclic isExternal ds ↔ StoredAcyclic ds := by
  have hneeds : Needs isExternal ds = LinksWithin ds := by
    funext key target
    exact propext ⟨fun ⟨ht, _, hd⟩ => ⟨ht, hd⟩, fun ⟨ht, hd⟩ => ⟨ht, hin target ht, hd⟩⟩
  rw [Acyclic, StoredAcyclic, hneeds]

end Definition

namespace Repository

/-! ## Phases -/

/-- The error of an alteration that does not fit. -/
def alterationError (ds : List Definition) (c : Definition) : RepositoryError :=
  match Named.get? ds c.key with
  | none => .orphanAlteration c.key
  | some base => .alteredEntity c.key base.entity.name c.entity.name

/-- What solving asks of a repository, in this order. -/
inductive Phase
  | alterations
  | placement
  | targets
  | cycles
  | conformance
deriving DecidableEq, Repr

namespace Phase

def all : List Phase := [alterations, placement, targets, cycles, conformance]

/-- The phases before one. -/
def earlier (p : Phase) : List Phase := all.takeWhile (· ≠ p)

variable (r : Repository) (prior : Notebook)

/-- What a phase asks. All but the first ask it of the definitions as the alterations leave them. -/
def Holds : Phase → Prop
  | alterations => ∀ c ∈ r.alterations, Fits r.definitions c
  | placement => ∀ d ∈ r.definitions.map (amended r.alterations), ¬d.HasMisplacedLink
  | targets => ∀ d ∈ r.definitions.map (amended r.alterations), ∀ name, d.LinksTo name →
      r.contains name = true ∨ prior.contains name = true ∨ r.isDeclared name = true
  | cycles => Definition.StoredAcyclic (r.definitions.map (amended r.alterations))
  | conformance => ∀ d ∈ r.definitions.map (amended r.alterations), d.check = .ok ()

/-- The errors that belong to a phase: of the first alteration in the queue that does not fit, of
links in the wrong place, of a link that leads nowhere, of a circle, and of any fault. -/
def Reports (e : ModelError) : Phase → Prop
  | alterations => ∃ before c after, r.alterations = before ++ c :: after ∧
      (∀ b ∈ before, Fits r.definitions b) ∧ ¬Fits r.definitions c ∧
      e = .repository (alterationError r.definitions c)
  | placement => ∃ d ∈ r.definitions.map (amended r.alterations), ∃ fault,
      d.checkLinkFields = .error fault ∧ e = .conformance fault ∧
      ((∃ key entity field, fault = .unknownField key entity field) ∨
        ∃ key field declared, fault = .wrongRole key field .link declared)
  | targets => ∃ key path missing, e = .links (.unresolved key path missing)
  | cycles => ∃ remaining groups, e = .links (.cyclic remaining groups)
  | conformance => ∃ d ∈ r.definitions.map (amended r.alterations), ∃ fault,
      d.check = .error fault ∧ e = .conformance fault

end Phase

/-- Of things that do not all satisfy a condition, one is the first that does not. -/
theorem exists_first_not {α : Type} {p : α → Prop} {xs : List α} (h : ¬∀ x ∈ xs, p x) :
    ∃ before x after, xs = before ++ x :: after ∧ (∀ b ∈ before, p b) ∧ ¬p x := by
  induction xs with
  | nil => exact absurd (by simp) h
  | cons x xs ih =>
    by_cases hx : p x
    · obtain ⟨before, y, after, rfl, hbefore, hy⟩ :=
        ih fun hall => h (List.forall_mem_cons.2 ⟨hx, hall⟩)
      exact ⟨x :: before, y, after, rfl, List.forall_mem_cons.2 ⟨hx, hbefore⟩, hy⟩
    · exact ⟨[], x, xs, rfl, by simp, hx⟩

/-- Of phases that do not all hold, one is the first that does not. -/
theorem Phase.exists_first {holds : Phase → Prop} (h : ¬∀ p, holds p) :
    ∃ p : Phase, (∀ q ∈ p.earlier, holds q) ∧ ¬holds p := by
  have hall : ¬∀ p ∈ all, holds p := fun hall => h fun p => hall p (by cases p <;> decide)
  obtain ⟨before, p, after, hsplit, hbefore, hp⟩ := exists_first_not hall
  refine ⟨p, fun q hq => hbefore q ?_, hp⟩
  rw [earlier, hsplit] at hq
  clear hsplit hbefore hall
  induction before with
  | nil => simp at hq
  | cons b before ih =>
    by_cases hb : b = p
    · simp [hb] at hq
    · simp only [List.cons_append, ne_eq, hb, not_false_eq_true, decide_true,
        List.takeWhile_cons_of_pos, List.mem_cons] at hq
      exact List.mem_cons.2 (hq.imp_right fun hq => ih (by simpa using hq))

variable {r : Repository} {prior : Notebook}

/-! ## Merging -/

theorem mergeOne_of_not_fits {ds : List Definition} {c : Definition} (h : ¬Fits ds c) :
    mergeOne ds c = .error (alterationError ds c) := by
  unfold mergeOne alterationError
  cases hbase : Named.get? ds c.key with
  | none => rfl
  | some base =>
    have hentity : base.entity.name ≠ c.entity.name := fun he =>
      h ⟨base, Named.mem_of_get? hbase, Named.nameOf_get? hbase, he⟩
    simp [hentity]

/-- Merged alterations do not change how one that does not fit is reported. -/
theorem alterationError_map_amended {ds changes : List Definition} {c : Definition} :
    alterationError (ds.map (amended changes)) c = alterationError ds c := by
  have hget : Named.get? (ds.map (amended changes)) c.key =
      (Named.get? ds c.key).map (amended changes) :=
    Named.get?_map (key_amended changes) ds c.key
  rw [alterationError, alterationError, hget]
  cases Named.get? ds c.key with
  | none => rfl
  | some base => simp

/-- The first alteration that does not fit stops the merging. -/
theorem merged_of_not_fits {before after : List Definition} {c : Definition}
    (hd : (Definition.keys r.definitions).Nodup) (hsplit : r.alterations = before ++ c :: after)
    (hbefore : ∀ b ∈ before, Fits r.definitions b) (hc : ¬Fits r.definitions c) :
    r.merged = .error (alterationError r.definitions c) := by
  have hmerged := (foldlM_mergeOne_eq_ok hd).2 ⟨hbefore, rfl⟩
  have hc' : ¬Fits (r.definitions.map (amended before)) c := mt fits_map_amended.1 hc
  have herror := mergeOne_of_not_fits hc'
  rw [alterationError_map_amended] at herror
  rw [merged, hsplit, List.foldlM_append, hmerged]
  simp only [List.foldlM_cons, bind, Except.bind, herror]

/-! ## Solving -/

/-- Links lead somewhere if their targets are stored, declared or in the prior notebook. -/
theorem resolved_iff :
    Definition.Resolved (r.isExternal prior) (r.definitions.map (amended r.alterations)) ↔
      Phase.targets.Holds r prior := by
  have hknown : ∀ name, (r.isExternal prior name = true ∨
      name ∈ Definition.keys (r.definitions.map (amended r.alterations))) ↔
      (r.contains name = true ∨ prior.contains name = true ∨ r.isDeclared name = true) := by
    intro name
    rw [keys_amended_definitions, ← Named.has_iff, isExternal]
    change _ ∨ r.contains name = true ↔ _
    cases r.contains name <;> simp
  exact forall₂_congr fun d _ => forall₂_congr fun name _ => hknown name

theorem acyclic_iff :
    Definition.Acyclic (r.isExternal prior) (r.definitions.map (amended r.alterations)) ↔
      Phase.cycles.Holds r prior := by
  refine Definition.acyclic_iff_storedAcyclic fun name hname => isExternal_eq_false ?_
  rwa [keys_amended_definitions] at hname

/-- Once the alterations are merged, the places of links are checked. -/
theorem solve_of_alterations (hd : (Definition.keys r.definitions).Nodup)
    (hfits : Phase.alterations.Holds r prior) :
    r.solve prior = (do
      (r.definitions.map (amended r.alterations)).forM fun d =>
        d.checkLinkFields.mapError .conformance
      let ordered ← (Definition.order (r.isExternal prior)
        (r.definitions.map (amended r.alterations))).mapError .links
      ordered.forM fun d => d.check.mapError .conformance
      return ordered.filter (!·.entity.isProvided)) := by
  rw [solve, (merged_eq_ok hd).2 ⟨hfits, rfl⟩]
  rfl

/-- Once links are known to stand in link fields, the definitions are ordered. -/
theorem solve_of_placement (hd : (Definition.keys r.definitions).Nodup)
    (hfits : Phase.alterations.Holds r prior) (hplaced : Phase.placement.Holds r prior) :
    r.solve prior = (do
      let ordered ← (Definition.order (r.isExternal prior)
        (r.definitions.map (amended r.alterations))).mapError .links
      ordered.forM fun d => d.check.mapError .conformance
      return ordered.filter (!·.entity.isProvided)) := by
  have hcheck : (r.definitions.map (amended r.alterations)).forM (fun d =>
      d.checkLinkFields.mapError ModelError.conformance) = .ok () :=
    forM_eq_ok.2 fun d hm => mapError_eq_ok.2 (Definition.checkLinkFields_eq_ok.2 (hplaced d hm))
  rw [solve_of_alterations hd hfits, hcheck]
  rfl

/-- Once they are ordered, the definitions are checked. -/
theorem solve_of_order (hd : (Definition.keys r.definitions).Nodup)
    (hfits : Phase.alterations.Holds r prior) (hplaced : Phase.placement.Holds r prior)
    {ordered : List Definition} (ho : Definition.order (r.isExternal prior)
      (r.definitions.map (amended r.alterations)) = .ok ordered) :
    r.solve prior = (do
      ordered.forM fun d => d.check.mapError .conformance
      return ordered.filter (!·.entity.isProvided)) := by
  rw [solve_of_placement hd hfits hplaced, ho]
  rfl

end Repository

namespace Definition

variable {isExternal : String → Bool} {ds : List Definition}

theorem exists_order_eq_unresolved (h : ¬Resolved isExternal ds) :
    ∃ key path missing, order isExternal ds = .error (.unresolved key path missing) := by
  obtain ⟨e, es, hes⟩ := List.exists_cons_of_ne_nil (mt (orphans_eq_nil_iff isExternal).1 h)
  obtain ⟨key, path, missing, rfl⟩ :=
    exists_unresolved_of_mem_orphans isExternal (hes ▸ List.mem_cons_self)
  exact ⟨key, path, missing, by rw [order, orderBy, hes]⟩

/-- How ordering ends if every link leads somewhere. -/
theorem order_cases (h : Resolved isExternal ds) (hd : (keys ds).Nodup) :
    (Acyclic isExternal ds ∧ ∃ out, order isExternal ds = .ok out ∧ out.Perm ds) ∨
      ¬Acyclic isExternal ds ∧
        ∃ remaining groups, order isExternal ds = .error (.cyclic remaining groups) := by
  rw [order, orderBy, (orphans_eq_nil_iff isExternal).2 h]
  obtain ⟨out, ho, hperm, hfirst⟩ | ⟨done, stuck, he, hperm, hne, hstuck⟩ :=
    passes_cases isExternal Graph.components ds (targetsFirst_nil isExternal)
  · exact .inl ⟨acyclic_of_targetsFirst isExternal hperm hd hfirst, out, ho, hperm⟩
  · exact .inr ⟨not_acyclic_of_stuck isExternal hperm h hne hstuck, _, _, he⟩

end Definition

namespace Repository

variable {r : Repository} {prior : Notebook}

/-- A phase that fails, with all before it passed, decides the error. -/
theorem exists_reported {p : Phase} (hd : (Definition.keys r.definitions).Nodup)
    (hearlier : ∀ q ∈ p.earlier, q.Holds r prior) (hp : ¬p.Holds r prior) :
    ∃ e, r.solve prior = .error e ∧ p.Reports r e := by
  have hkeys : (Definition.keys (r.definitions.map (amended r.alterations))).Nodup := by
    rwa [keys_amended_definitions]
  cases p with
  | alterations =>
    obtain ⟨before, c, after, hqueue, hbefore, hc⟩ := exists_first_not hp
    have hmerged := merged_of_not_fits hd hqueue hbefore hc
    exact ⟨_, by rw [solve, hmerged]; rfl, before, c, after, hqueue, hbefore, hc, rfl⟩
  | placement =>
    have hfits := hearlier .alterations (by decide)
    have hcheck : ¬∀ d ∈ r.definitions.map (amended r.alterations),
        d.checkLinkFields.mapError ModelError.conformance = .ok () := by
      simp only [mapError_eq_ok, Definition.checkLinkFields_eq_ok]
      exact hp
    obtain ⟨d, hm, e, hfail, he⟩ := exists_forM_eq_error hcheck
    obtain ⟨fault, hfault, rfl⟩ := mapError_eq_error.1 hfail
    refine ⟨_, by rw [solve_of_alterations hd hfits, he]; rfl, d, hm, fault, hfault, rfl, ?_⟩
    exact Definition.fault_of_mem_misplacedLinks (Definition.mem_of_reportFirst_eq_error hfault)
  | targets =>
    have hfits := hearlier .alterations (by decide)
    have hplaced := hearlier .placement (by decide)
    obtain ⟨key, path, missing, he⟩ :=
      Definition.exists_order_eq_unresolved (mt resolved_iff.1 hp)
    exact ⟨_, by rw [solve_of_placement hd hfits hplaced, he]; rfl, key, path, missing, rfl⟩
  | cycles =>
    have hfits := hearlier .alterations (by decide)
    have hplaced := hearlier .placement (by decide)
    have hresolved := resolved_iff.2 (hearlier .targets (by decide))
    obtain ⟨hacyclic, -⟩ | ⟨-, remaining, groups, he⟩ := Definition.order_cases hresolved hkeys
    · exact absurd (acyclic_iff.1 hacyclic) hp
    · exact ⟨_, by rw [solve_of_placement hd hfits hplaced, he]; rfl, remaining, groups, rfl⟩
  | conformance =>
    have hfits := hearlier .alterations (by decide)
    have hplaced := hearlier .placement (by decide)
    have hresolved := resolved_iff.2 (hearlier .targets (by decide))
    have hacyclic := acyclic_iff.2 (hearlier .cycles (by decide))
    obtain ⟨-, ordered, ho, hperm⟩ | ⟨hcyclic, -⟩ := Definition.order_cases hresolved hkeys
    · have hcheck : ¬∀ d ∈ ordered, d.check.mapError ModelError.conformance = .ok () := by
        simp only [mapError_eq_ok, hperm.mem_iff]
        exact hp
      obtain ⟨d, hm, e, hfail, he⟩ := exists_forM_eq_error hcheck
      obtain ⟨fault, hfault, rfl⟩ := mapError_eq_error.1 hfail
      exact ⟨_, by rw [solve_of_order hd hfits hplaced ho, he]; rfl, d, hperm.mem_iff.1 hm, fault,
        hfault, rfl⟩
    · exact absurd hacyclic hcyclic

/-- A repository of which all phases hold is solved. -/
theorem exists_solve_of_holds (hd : (Definition.keys r.definitions).Nodup)
    (h : ∀ p : Phase, p.Holds r prior) : ∃ ds, r.solve prior = .ok ds := by
  have hkeys : (Definition.keys (r.definitions.map (amended r.alterations))).Nodup := by
    rwa [keys_amended_definitions]
  obtain ⟨-, ordered, ho, hperm⟩ | ⟨hcyclic, -⟩ :=
    Definition.order_cases (resolved_iff.2 (h .targets)) hkeys
  · have hcheck : ordered.forM (fun d => d.check.mapError ModelError.conformance) = .ok () :=
      forM_eq_ok.2 fun d hm => mapError_eq_ok.2 (h .conformance d (hperm.mem_iff.1 hm))
    exact ⟨_, by rw [solve_of_order hd (h .alterations) (h .placement) ho, hcheck]; rfl⟩
  · exact absurd (acyclic_iff.2 (h .cycles)) hcyclic

/-- **Solving accepts exactly the well-formed repositories.** A repository is solved if all phases
hold of it; otherwise the first phase that does not decides the error. -/
theorem solve_by_phases {dialect : Dialect} (h : r.Reachable dialect) :
    ((∃ ds, r.solve prior = .ok ds) ↔ ∀ p : Phase, p.Holds r prior) ∧
      ∀ p : Phase, (∀ q ∈ p.earlier, q.Holds r prior) → ¬p.Holds r prior →
        ∃ e, r.solve prior = .error e ∧ p.Reports r e := by
  have hd := h.nodup_keys
  refine ⟨⟨?_, exists_solve_of_holds hd⟩, fun p => exists_reported hd⟩
  rintro ⟨ds, hds⟩
  by_contra hnot
  obtain ⟨p, hearlier, hp⟩ := Phase.exists_first hnot
  obtain ⟨e, he, -⟩ := exists_reported hd hearlier hp
  cases hds.symm.trans he

/-- Two domains that link to each other, one of them also to a name that does not exist; the other
one lacks its data type. The alteration fits, and a name that is stored is declared as well. -/
def faultyDomains : List Filling :=
  let domain (key : String) := Definition.empty EntityKind.domain.entity key none
  [.alter ((domain "DoPlate").setProperty FieldName.storeType (.text "CLOB")),
    .declare "DoPlate",
    .add (((domain "DoPlate").addLinks FieldName.formatter ["DoSign"]).addLinks FieldName.dataType
      ["Nowhere"]),
    .add ((domain "DoSign").addLinks FieldName.formatter ["DoPlate"])]

/-- Of the three phases that fail, the first reports. -/
theorem solve_by_phases_faultyDomains :
    (∀ p ∈ [Phase.targets, .cycles, .conformance],
      ¬p.Holds (filled .standard faultyDomains) .empty) ∧
      ∃ e, (filled .standard faultyDomains).solve .empty = .error e ∧
        Phase.targets.Reports (filled .standard faultyDomains) e := by
  have hlinks : ∀ key ∈ ["DoPlate", "DoSign"], ∀ target ∈ ["DoPlate", "DoSign"], key ≠ target →
      ∃ d ∈ (filled .standard faultyDomains).definitions.map
          (amended (filled .standard faultyDomains).alterations),
        d.key = key ∧ target ∈ d.allLinks.map Link.target := by
    decide +kernel
  have within : ∀ key ∈ ["DoPlate", "DoSign"], ∀ target ∈ ["DoPlate", "DoSign"], key ≠ target →
      Definition.LinksWithin ((filled .standard faultyDomains).definitions.map
        (amended (filled .standard faultyDomains).alterations)) key target := by
    intro key hkey target htarget hne
    obtain ⟨d, hd, rfl, hl⟩ := hlinks key hkey target htarget hne
    obtain ⟨c, hc, hstored, -⟩ := hlinks target htarget d.key hkey hne.symm
    exact ⟨hstored ▸ List.mem_map_of_mem hc, d, hd, rfl, Definition.linksTo_iff.2 hl⟩
  have htargets : ¬Phase.targets.Holds (filled .standard faultyDomains) .empty := by
    rw [← resolved_iff, ← Definition.orphans_eq_nil_iff]
    decide +kernel
  have hcycles : ¬Phase.cycles.Holds (filled .standard faultyDomains) .empty := fun h =>
    h "DoPlate" (.head (within "DoPlate" (by simp) "DoSign" (by simp) (by decide))
      (.single (within "DoSign" (by simp) "DoPlate" (by simp) (by decide))))
  have hconformance : ¬Phase.conformance.Holds (filled .standard faultyDomains) .empty := by
    rw [Phase.Holds]
    decide +kernel
  refine ⟨by simp [htargets, hcycles, hconformance], ?_⟩
  refine (solve_by_phases ⟨faultyDomains, rfl⟩).2 .targets (fun q hq => ?_) htargets
  have hq : q = .alterations ∨ q = .placement := by
    revert q
    decide
  rcases hq with rfl | rfl
  · rw [Phase.Holds]
    unfold Fits
    decide +kernel
  · intro d hd
    rw [← Definition.checkLinkFields_eq_ok]
    revert d
    decide +kernel

end Repository

end Metamodel
