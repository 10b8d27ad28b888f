import Mathlib.Data.List.Permutation
import Mathlib.Data.String.Basic
import Mathlib.Order.Minimal
import Metamodel.Proofs.GraphCycles
import Metamodel.Proofs.PassOrder

set_option autoImplicit false

/-! # The report of cycles is exact

Where definitions cannot be ordered although all their links lead somewhere, `Definition.orderBy`
reports the ones that remain and the cycles among them. Both are said here by `Definition.Needs`
alone, for any function that finds the strongly connected components of a graph
(`Graph.AreComponents`).

What has been placed is closed under links, since its targets stand in front, so a path that ends
among the definitions that are stuck lies among them (`Splits.mem_stuck_of_reaches`), and the graph
of the stuck ones has the same paths between them as the graph of all (`Splits.transGen_edge_iff`).
Each stuck definition needs another one, so each leads to a cycle; and nothing that leads to a cycle
is placed, since what is placed is in order (`Splits.mem_stuck_iff`). -/

namespace Metamodel

namespace Definition

open Relation

variable (isExternal : String → Bool)

/-! ## What is placed and what is stuck -/

/-- Definitions that cannot all be placed: those that are placed stand behind what they need, and
each that is stuck waits for one that is not placed. -/
structure Splits (ds done stuck : List Definition) : Prop where
  nodup : (keys ds).Nodup
  perm : (done ++ stuck).Perm ds
  sublist : stuck.Sublist ds
  resolved : Resolved isExternal ds
  targetsFirst : TargetsFirst isExternal done
  notReady : ∀ d ∈ stuck, d.isReady isExternal (keys done) = false

/-- A report of cycles is about definitions that are stuck. -/
theorem exists_splits_of_order {components : Graph String → List (List String)}
    {ds : List Definition} (hd : (keys ds).Nodup) {remaining : List String}
    {cycles : List (List String)}
    (h : orderBy isExternal components ds = .error (.cyclic remaining cycles)) :
    ∃ done stuck, Splits isExternal ds done stuck ∧ stuck ≠ [] ∧
      cyclicError isExternal components stuck = .cyclic remaining cycles := by
  unfold orderBy at h
  split at h
  · next e es hes =>
    have hmem : e ∈ orphans isExternal ds := hes ▸ List.mem_cons_self
    obtain ⟨key, path, missing, rfl⟩ := exists_unresolved_of_mem_orphans isExternal hmem
    cases h
  · next hnone =>
    rw [passes_eq_rounds] at h
    split at h
    · cases h
    · next hne =>
      have hfirst := targetsFirst_rounds isExternal ds (targetsFirst_nil isExternal)
      refine ⟨_, _, ⟨hd, perm_rounds isExternal [] ds, sublist_rounds isExternal [] ds,
        (orphans_eq_nil_iff isExternal).1 hnone, hfirst, fun d hm => ?_⟩, hne,
        Except.error.inj h⟩
      exact isReady_eq_false_of_mem_rounds isExternal hm

theorem Needs.mono {ds part : List Definition} (hsub : part ⊆ ds) {key target : String}
    (h : Needs isExternal part key target) : Needs isExternal ds key target := by
  obtain ⟨ht, he, d, hm, hk, hl⟩ := h
  exact ⟨List.map_subset _ hsub ht, he, d, hsub hm, hk, hl⟩

/-- Between some of the definitions there are the links that there are among all. -/
theorem Needs.of_mem {ds part : List Definition} (hd : (keys ds).Nodup) (hsub : part ⊆ ds)
    {key target : String} (hk : key ∈ keys part) (ht : target ∈ keys part)
    (h : Needs isExternal ds key target) : Needs isExternal part key target := by
  obtain ⟨-, he, d, hm, rfl, hl⟩ := h
  obtain ⟨c, hc, hkey⟩ := List.mem_map.1 hk
  obtain rfl : c = d := List.inj_on_of_nodup_map hd (hsub hc) hm hkey
  exact ⟨ht, he, c, hc, rfl, hl⟩

namespace Splits

variable {isExternal} {ds done stuck : List Definition} (h : Splits isExternal ds done stuck)
include h

theorem subset_done : done ⊆ ds := fun _ hm => h.perm.mem_iff.1 (List.mem_append_left _ hm)

theorem nodup_append : (keys done ++ keys stuck).Nodup := by
  rw [← keys_append]
  exact (h.perm.map key).nodup_iff.2 h.nodup

theorem mem_keys_iff {name : String} : name ∈ keys ds ↔ name ∈ keys done ∨ name ∈ keys stuck := by
  rw [← List.mem_append, ← keys_append]
  exact (h.perm.map key).mem_iff.symm

theorem not_mem_done {name : String} (hs : name ∈ keys stuck) : name ∉ keys done :=
  fun hdone => (List.nodup_append.1 h.nodup_append).2.2 name hdone name hs rfl

/-- What is placed needs only what is placed. -/
theorem mem_done_of_needs {key target : String} (hk : key ∈ keys done)
    (hn : Needs isExternal ds key target) : target ∈ keys done := by
  obtain ⟨-, he, d, hm, rfl, hl⟩ := hn
  obtain ⟨c, hc, hkey⟩ := List.mem_map.1 hk
  obtain rfl : c = d := List.inj_on_of_nodup_map h.nodup (h.subset_done hc) hm hkey
  obtain ⟨before, after, rfl⟩ := List.append_of_mem hc
  rw [keys_append]
  exact List.mem_append_left _ (h.targetsFirst before c after rfl target hl he)

/-- What leads to a definition that is stuck is stuck itself. -/
theorem mem_stuck_of_reaches {key target : String} (ht : target ∈ keys stuck)
    (hr : ReflTransGen (Needs isExternal ds) key target) : key ∈ keys stuck := by
  induction hr using ReflTransGen.head_induction_on with
  | refl => exact ht
  | head hn _ ih =>
    obtain ⟨d, hm, rfl⟩ := hn.2.2.imp fun d hd => And.intro hd.1 hd.2.1
    refine (h.mem_keys_iff.1 (List.mem_map_of_mem hm)).resolve_left fun hdone => ?_
    exact h.not_mem_done ih (h.mem_done_of_needs hdone hn)

/-- What is placed does not need itself in the end. -/
theorem mem_stuck_of_cycle {key : String} (hc : TransGen (Needs isExternal ds) key key) :
    key ∈ keys stuck := by
  have hkey : key ∈ keys ds := by
    cases hc with
    | single hn => exact hn.1
    | tail _ hn => exact hn.1
  refine (h.mem_keys_iff.1 hkey).resolve_left fun hdone => ?_
  -- A path from what is placed goes through what is placed.
  have hpath : ∀ target, TransGen (Needs isExternal ds) key target →
      target ∈ keys done ∧ TransGen (Needs isExternal done) key target := by
    intro target hr
    induction hr with
    | single hn =>
      have ht := h.mem_done_of_needs hdone hn
      exact ⟨ht, .single (hn.of_mem isExternal h.nodup h.subset_done hdone ht)⟩
    | tail _ hn ih =>
      have ht := h.mem_done_of_needs ih.1 hn
      exact ⟨ht, ih.2.tail (hn.of_mem isExternal h.nodup h.subset_done ih.1 ht)⟩
  have hdone' : (keys done).Nodup := (List.nodup_append.1 h.nodup_append).1
  exact acyclic_of_targetsFirst isExternal (.refl done) hdone' h.targetsFirst key (hpath key hc).2

/-- What is stuck is what leads to a cycle. -/
theorem mem_stuck_iff {key : String} :
    key ∈ keys stuck ↔ ∃ c, ReflTransGen (Needs isExternal ds) key c ∧
      TransGen (Needs isExternal ds) c c := by
  constructor
  · exact exists_cycle_of_mem fun _ => exists_needs_of_stuck isExternal h.perm h.resolved h.notReady
  · rintro ⟨c, hr, hc⟩
    exact h.mem_stuck_of_reaches (h.mem_stuck_of_cycle hc) hr

end Splits

/-! ## The graph of what is stuck -/

theorem eraseDups_of_nodup {α : Type} [BEq α] [LawfulBEq α] {xs : List α} (h : xs.Nodup) :
    xs.eraseDups = xs := by
  induction xs with
  | nil => rfl
  | cons x xs ih =>
    obtain ⟨hx, hxs⟩ := List.nodup_cons.1 h
    have hkeep : xs.filter (fun y => !y == x) = xs := by
      refine List.filter_eq_self.2 fun y hy => ?_
      have hne : y ≠ x := ne_of_mem_of_not_mem hy hx
      simpa using hne
    rw [List.eraseDups_cons, hkeep, ih hxs]

theorem nodes_linkGraph {ds : List Definition} (hd : (keys ds).Nodup) :
    (linkGraph isExternal ds).nodes = keys ds := by
  rw [linkGraph, eraseDups_of_nodup (List.nodup_reverse.2 hd), List.reverse_reverse]

theorem edge_linkGraph {ds : List Definition} (hd : (keys ds).Nodup) {key target : String} :
    (linkGraph isExternal ds).Edge key target ↔ Needs isExternal ds key target := by
  rw [Graph.Edge, nodes_linkGraph isExternal hd, Needs]
  simp only [linkGraph, List.mem_reverse, List.mem_eraseDups, List.mem_flatMap, List.mem_filter,
    beq_iff_eq, mem_internalTargets]
  constructor
  · rintro ⟨⟨d, ⟨hm, hk⟩, hl, he⟩, ht⟩
    exact ⟨ht, he, d, hm, hk, hl⟩
  · rintro ⟨ht, he, d, hm, hk, hl⟩
    exact ⟨⟨d, ⟨hm, hk⟩, hl, he⟩, ht⟩

namespace Splits

variable {isExternal} {ds done stuck : List Definition} (h : Splits isExternal ds done stuck)
include h

theorem nodup_stuck : (keys stuck).Nodup := (List.nodup_append.1 h.nodup_append).2.1

/-- The links among what is stuck have the paths that all links have between them. -/
theorem transGen_edge_iff {key target : String} (ht : target ∈ keys stuck) :
    TransGen (linkGraph isExternal stuck).Edge key target ↔
      TransGen (Needs isExternal ds) key target := by
  have hedge : ∀ {a b}, (linkGraph isExternal stuck).Edge a b ↔ Needs isExternal stuck a b :=
    edge_linkGraph isExternal h.nodup_stuck
  constructor
  · exact TransGen.mono (fun _ _ he => (hedge.1 he).mono isExternal h.sublist.subset) key target
  · intro hr
    induction hr using TransGen.head_induction_on with
    | single hn =>
      have hk := h.mem_stuck_of_reaches ht (.single hn)
      exact .single (hedge.2 (hn.of_mem isExternal h.nodup h.sublist.subset hk ht))
    | head hn hr ih =>
      have hnext := h.mem_stuck_of_reaches ht hr.to_reflTransGen
      have hk := h.mem_stuck_of_reaches hnext (.single hn)
      exact .head (hedge.2 (hn.of_mem isExternal h.nodup h.sublist.subset hk hnext)) ih

/-- The graph of what is stuck has all cycles. -/
theorem onCycle_iff {a b : String} :
    (linkGraph isExternal stuck).OnCycle a b ↔
      TransGen (Needs isExternal ds) a b ∧ TransGen (Needs isExternal ds) b a := by
  have hnode : ∀ {x y}, TransGen (linkGraph isExternal stuck).Edge x y → y ∈ keys stuck := by
    intro x y hr
    rw [← nodes_linkGraph isExternal h.nodup_stuck]
    exact Graph.mem_nodes_of_transGen hr
  constructor
  · rintro ⟨hab, hba⟩
    exact ⟨(h.transGen_edge_iff (hnode hab)).1 hab, (h.transGen_edge_iff (hnode hba)).1 hba⟩
  · rintro ⟨hab, hba⟩
    exact ⟨(h.transGen_edge_iff (h.mem_stuck_of_cycle (hba.trans hab))).2 hab,
      (h.transGen_edge_iff (h.mem_stuck_of_cycle (hab.trans hba))).2 hba⟩

end Splits

/-! ## The report -/

/-- Each definition of a set reaches each other one along links, through whatever definitions. -/
def MutuallyReach (ds : List Definition) (s : Set String) : Prop :=
  ∀ a ∈ s, ∀ b ∈ s, ReflTransGen (Needs isExternal ds) a b

/-- An entry of the report: a maximal set of remaining definitions that reach each other, sorted and
without repetition. A single definition is one only if it links to itself. -/
structure IsEntry (ds : List Definition) (remaining names : List String) : Prop where
  sorted : names.Pairwise (· < ·)
  maximal : Maximal (fun s => s ⊆ {key | key ∈ remaining} ∧ MutuallyReach isExternal ds s)
    {key | key ∈ names}
  selfLink : ∀ key, names = [key] → Needs isExternal ds key key

/-- A class of the cycles, sorted, is an entry. -/
theorem isEntry_of_onCycle {ds : List Definition} {remaining names : List String} {v : String}
    (hv : v ∈ names) (hclass : ∀ w, w ∈ names ↔
      TransGen (Needs isExternal ds) v w ∧ TransGen (Needs isExternal ds) w v)
    (hremaining : names ⊆ remaining) (hnodup : names.Nodup) (hsorted : names.Pairwise (· ≤ ·)) :
    IsEntry isExternal ds remaining names where
  sorted := hsorted.imp₂ (fun _ _ hle hne => lt_of_le_of_ne hle hne) hnodup
  maximal := by
    refine ⟨⟨fun _ hw => hremaining hw, fun a ha b hb => ?_⟩, fun s hs hsub w hw => ?_⟩
    · exact (((hclass a).1 ha).2.trans ((hclass b).1 hb).1).to_reflTransGen
    · -- What reaches `v` and is reached from it is `v` or lies on a cycle with it.
      rcases reflTransGen_iff_eq_or_transGen.1 (hs.2 v (hsub hv) w hw) with rfl | hvw
      · exact hv
      · rcases reflTransGen_iff_eq_or_transGen.1 (hs.2 w hw v (hsub hv)) with rfl | hwv
        · exact hv
        · exact (hclass w).2 ⟨hvw, hwv⟩
  selfLink := by
    rintro key rfl
    obtain rfl := List.mem_singleton.1 hv
    obtain ⟨next, hn, hr⟩ := TransGen.head'_iff.1 ((hclass v).1 hv).1
    rcases reflTransGen_iff_eq_or_transGen.1 hr with rfl | hback
    · exact hn
    · have hnext := (hclass next).2 ⟨.single hn, hback⟩
      rwa [List.mem_singleton.1 hnext] at hn

namespace Splits

variable {isExternal} {ds done stuck : List Definition} (h : Splits isExternal ds done stuck)
include h

/-- A component that holds a cycle is a class of the graph of what is stuck. -/
theorem isEntry_of_isCyclic {components : List (List String)}
    (hcs : (linkGraph isExternal stuck).AreComponents components) {c : List String}
    (hc : c ∈ components) (hcyclic : (linkGraph isExternal stuck).isCyclic c = true) :
    IsEntry isExternal ds (keys stuck) (c.mergeSort fun a b => decide (a ≤ b)) := by
  obtain ⟨v, hv⟩ := List.exists_mem_of_ne_nil c fun hnil => hcs.ne_nil (hnil ▸ hc)
  have hclass := hcs.mem_iff_onCycle hc hcyclic hv
  have hsorted : (c.mergeSort fun a b => decide (a ≤ b)).Pairwise fun a b => decide (a ≤ b) :=
    List.pairwise_mergeSort
      (fun _ _ _ hab hbc => decide_eq_true ((of_decide_eq_true hab).trans (of_decide_eq_true hbc)))
      (fun a b => by simpa using le_total a b) c
  refine isEntry_of_onCycle isExternal (List.mem_mergeSort.2 hv) (fun w => ?_) (fun w hw => ?_)
    ((List.mergeSort_perm c _).nodup_iff.2 (hcs.nodup_of_mem hc)) (hsorted.imp of_decide_eq_true)
  · rw [List.mem_mergeSort, hclass, h.onCycle_iff]
  · have hvw := h.onCycle_iff.1 ((hclass w).1 (List.mem_mergeSort.1 hw))
    exact h.mem_stuck_of_cycle (hvw.2.trans hvw.1)

end Splits

/-- **The report of cycles is exact**, if what is asked for the strongly connected components of a
graph knows them. What remains are, in the order they are given in and once each, the definitions
that lead to a cycle along links that are not satisfied from outside. There is at least one entry, no
two share a definition, and each is a maximal set of remaining definitions that reach each other. A
definition on a cycle stands in exactly one entry, one that only depends on a cycle in none. -/
theorem cyclic_exact {components : Graph String → List (List String)}
    (hcomponents : ∀ g : Graph String, g.nodes.Nodup → g.AreComponents (components g))
    {ds : List Definition} (hd : (keys ds).Nodup) {remaining : List String}
    {cycles : List (List String)}
    (h : orderBy isExternal components ds = .error (.cyclic remaining cycles)) :
    (remaining.Sublist (keys ds) ∧ remaining.Nodup ∧
      ∀ key, key ∈ remaining ↔ ∃ c, ReflTransGen (Needs isExternal ds) key c ∧
        TransGen (Needs isExternal ds) c c) ∧
    (cycles ≠ [] ∧ cycles.Pairwise List.Disjoint ∧
      ∀ names ∈ cycles, IsEntry isExternal ds remaining names) ∧
    (∀ key, TransGen (Needs isExternal ds) key key → ∃! names, names ∈ cycles ∧ key ∈ names) ∧
    ∀ key ∈ remaining, ¬TransGen (Needs isExternal ds) key key →
      ∀ names ∈ cycles, key ∉ names := by
  obtain ⟨done, stuck, hs, hne, hreport⟩ := exists_splits_of_order isExternal hd h
  obtain ⟨rfl, rfl⟩ := LinkError.cyclic.inj hreport
  set g := linkGraph isExternal stuck
  have hcs : g.AreComponents (components g) :=
    hcomponents g (nodes_linkGraph isExternal hs.nodup_stuck ▸ hs.nodup_stuck)
  set sorted := fun c : List String => c.mergeSort fun a b => decide (a ≤ b)
  -- The entries are the components that hold a cycle, sorted.
  have hentry : ∀ {names}, names ∈ ((components g).filter g.isCyclic).map sorted ↔
      ∃ c ∈ components g, g.isCyclic c = true ∧ sorted c = names := by
    simp only [List.mem_map, List.mem_filter, and_assoc, implies_true]
  have hreported : ∀ {key}, TransGen (Needs isExternal ds) key key →
      ∃ c ∈ components g, g.isCyclic c = true ∧ key ∈ c :=
    fun hc => hcs.exists_isCyclic (hs.onCycle_iff.2 ⟨hc, hc⟩).1
  have hdisjoint : (((components g).filter g.isCyclic).map sorted).Pairwise List.Disjoint := by
    refine List.pairwise_map.2 ((hcs.pairwise_disjoint.filter _).imp fun hcc key hk hk' => ?_)
    exact hcc (List.mem_mergeSort.1 hk) (List.mem_mergeSort.1 hk')
  refine ⟨⟨hs.sublist.map key, hs.nodup_stuck, fun _ => hs.mem_stuck_iff⟩,
    ⟨?_, hdisjoint, fun names hm => ?_⟩, fun key hc => ?_, fun key _ hc names hm hk => ?_⟩
  · obtain ⟨d, hm⟩ := List.exists_mem_of_ne_nil stuck hne
    obtain ⟨key, -, hc⟩ := hs.mem_stuck_iff.1 (List.mem_map_of_mem hm)
    obtain ⟨c, hm, hcyclic, -⟩ := hreported hc
    exact List.ne_nil_of_mem (hentry.2 ⟨c, hm, hcyclic, rfl⟩)
  · obtain ⟨c, hc, hcyclic, rfl⟩ := hentry.1 hm
    exact hs.isEntry_of_isCyclic hcs hc hcyclic
  · obtain ⟨c, hm, hcyclic, hk⟩ := hreported hc
    have hnames := hentry.2 ⟨c, hm, hcyclic, rfl⟩
    refine ⟨_, ⟨hnames, List.mem_mergeSort.2 hk⟩, fun names hother => ?_⟩
    obtain ⟨hm', hk'⟩ := hother
    have : Std.Symm (List.Disjoint (α := String)) := ⟨fun _ _ => List.Disjoint.symm⟩
    by_contra hne
    exact hdisjoint.forall hm' hnames hne hk' (List.mem_mergeSort.2 hk)
  · obtain ⟨c, hc', hcyclic, rfl⟩ := hentry.1 hm
    have hkey := (hcs.isCyclic_iff hc' (List.mem_mergeSort.1 hk)).1 hcyclic
    exact hc (hs.onCycle_iff.1 ⟨hkey, hkey⟩).1

/-- Two definitions that link to each other, one of them twice and the other from a nested one; one
that links to itself; one that only depends on the two; and one that depends on nothing. -/
def tangle : List Definition :=
  let node : Entity := ⟨"Node", [], false⟩
  let part := (empty node "part" none).addLinks "ref" ["street", "left"]
  [(empty node "user" none).addLinks "ref" ["right", "ground"],
    (empty node "right" none).addChild "parts" part,
    (empty node "ground" none),
    (empty node "left" none).addLinks "ref" ["right", "right"],
    (empty node "mirror" none).addLinks "ref" ["mirror", "street"]]

theorem cyclic_exact_tangle :
    (∀ g : Graph String, g.nodes.Nodup → g.AreComponents g.components) ∧
      (keys tangle).Nodup ∧ ∃ remaining cycles,
      orderBy (· == "street") Graph.components tangle = .error (.cyclic remaining cycles) ∧
      remaining = ["user", "right", "left", "mirror"] ∧
      cycles = [["left", "right"], ["mirror"]] ∧
      (∃ c, ReflTransGen (Needs (· == "street") tangle) "user" c ∧
        TransGen (Needs (· == "street") tangle) c c) ∧
      IsEntry (· == "street") tangle remaining ["left", "right"] ∧
      Needs (· == "street") tangle "mirror" "mirror" := by
  have hd : (keys tangle).Nodup := by decide
  have horphans : orphans (· == "street") tangle = [] := by decide +kernel
  have hfirst : pass (· == "street") (keys []) tangle =
      (tangle.filter (·.key == "ground"), tangle.filter (·.key != "ground")) := by
    cbv
  have hsecond : pass (· == "street") (keys (tangle.filter (·.key == "ground")))
      (tangle.filter (·.key != "ground")) = ([], tangle.filter (·.key != "ground")) := by
    cbv
  have hcycles : cyclicError (· == "street") Graph.components
      (tangle.filter (·.key != "ground")) =
      .cyclic ["user", "right", "left", "mirror"] [["left", "right"], ["mirror"]] := by
    cbv
  have hreport : orderBy (· == "street") Graph.components tangle =
      .error (.cyclic ["user", "right", "left", "mirror"] [["left", "right"], ["mirror"]]) := by
    calc orderBy (· == "street") Graph.components tangle
        = passes (· == "street") Graph.components [] tangle := by rw [orderBy, horphans]
      _ = passes (· == "street") Graph.components (tangle.filter (·.key == "ground"))
            (tangle.filter (·.key != "ground")) :=
          passes_of_pass_cons (· == "street") _ (List.cons_ne_nil _ _) hfirst
      _ = .error (cyclicError (· == "street") Graph.components
            (tangle.filter (·.key != "ground"))) :=
          passes_of_pass_nil (· == "street") _ (List.cons_ne_nil _ _) hsecond
      _ = _ := by rw [hcycles]
  have hcomponents : ∀ g : Graph String, g.nodes.Nodup → g.AreComponents g.components :=
    fun _ => Graph.areComponents_components
  obtain ⟨⟨-, -, hremaining⟩, ⟨-, -, hentry⟩, -⟩ :=
    cyclic_exact (· == "street") hcomponents hd hreport
  exact ⟨hcomponents, hd, _, _, hreport, rfl, rfl, (hremaining "user").1 (by decide),
    hentry ["left", "right"] (by decide), (hentry ["mirror"] (by decide)).selfLink "mirror" rfl⟩

end Definition

end Metamodel
