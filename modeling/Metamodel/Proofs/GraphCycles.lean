import Mathlib.Data.List.Lattice
import Mathlib.Data.List.Nodup
import Mathlib.Logic.Relation
import Metamodel.Graph

set_option autoImplicit false

/-! # The search finds the strongly connected components

Two nodes are connected if each reaches the other along edges (`Graph.Connected`), and
`Graph.AreComponents` says which lists of nodes are the strongly connected components of a graph:
each node is in one of them, and its list holds just the nodes that it is connected with. Those that
hold a cycle (`Graph.isCyclic`) are the classes of the nodes that reach themselves along at least one
edge (`AreComponents.mem_iff_onCycle`).

What `Graph.search` leaves is said by reachability along edges: it is sound, since every node it
leaves is reached from a node it was told to enter (`search_sound`), and complete, since it closes
what it enters under edges (`mem_search_of_edge`). So `Graph.reachable` is the transitive closure,
and `Graph.components` lists the components (`areComponents_components`). -/

namespace Metamodel

namespace Graph

open Relation

variable {α : Type}

/-- An edge leads to a successor that is one of the nodes. -/
def Edge (g : Graph α) (v w : α) : Prop := w ∈ g.successors v ∧ w ∈ g.nodes

theorem mem_nodes_of_transGen {g : Graph α} {v w : α} (h : TransGen g.Edge v w) : w ∈ g.nodes := by
  cases h with
  | single he => exact he.2
  | tail _ he => exact he.2

/-- Each of two nodes is reached from the other along at least one edge. -/
def OnCycle (g : Graph α) (v w : α) : Prop := TransGen g.Edge v w ∧ TransGen g.Edge w v

/-- Each of two nodes is reached from the other along edges, if they are not the same. -/
def Connected (g : Graph α) (v w : α) : Prop := ReflTransGen g.Edge v w ∧ ReflTransGen g.Edge w v

theorem Connected.refl (g : Graph α) (v : α) : g.Connected v v := ⟨.refl, .refl⟩

theorem Connected.symm {g : Graph α} {v w : α} (h : g.Connected v w) : g.Connected w v := And.symm h

theorem Connected.trans {g : Graph α} {u v w : α} (h : g.Connected u v) (h' : g.Connected v w) :
    g.Connected u w :=
  ⟨h.1.trans h'.1, h'.2.trans h.2⟩

theorem OnCycle.connected {g : Graph α} {v w : α} (h : g.OnCycle v w) : g.Connected v w :=
  ⟨h.1.to_reflTransGen, h.2.to_reflTransGen⟩

/-- What is connected with a node that reaches itself is on a cycle with it. -/
theorem Connected.onCycle {g : Graph α} {v w : α} (h : g.Connected v w)
    (hv : TransGen g.Edge v v) : g.OnCycle v w :=
  ⟨hv.trans_left h.1, .trans_right h.2 hv⟩

/-- The lists are the strongly connected components of a graph: each node stands in one of them, at
one place, and its list holds just the nodes that are connected with it. -/
structure AreComponents (g : Graph α) (components : List (List α)) : Prop where
  ne_nil : [] ∉ components
  nodup : components.flatten.Nodup
  mem_iff : ∀ v, v ∈ components.flatten ↔ v ∈ g.nodes
  connected : ∀ c ∈ components, ∀ v ∈ c, ∀ w, w ∈ c ↔ g.Connected v w

namespace AreComponents

variable {g : Graph α} {components : List (List α)} (h : g.AreComponents components)
include h

theorem nodup_of_mem {c : List α} (hc : c ∈ components) : c.Nodup :=
  (List.nodup_flatten.1 h.nodup).1 c hc

theorem pairwise_disjoint : components.Pairwise List.Disjoint := (List.nodup_flatten.1 h.nodup).2

theorem exists_mem {v : α} (hv : v ∈ g.nodes) : ∃ c ∈ components, v ∈ c :=
  List.mem_flatten.1 ((h.mem_iff v).2 hv)

end AreComponents

variable [DecidableEq α] (g : Graph α)

/-! ## The steps of a search -/

theorem search_leave (seen : List α) (v : α) (tasks : List (Task α)) :
    g.search seen (.leave v :: tasks) = v :: g.search seen tasks := by
  rw [search]

theorem search_enter {seen : List α} {v : α} (tasks : List (Task α)) (hn : v ∈ g.nodes)
    (hs : v ∉ seen) :
    g.search seen (.enter v :: tasks) =
      g.search (v :: seen) ((g.successors v).map .enter ++ .leave v :: tasks) := by
  rw [search, if_pos ⟨hn, hs⟩]

theorem search_skip {seen : List α} {v : α} (tasks : List (Task α))
    (h : v ∈ g.nodes → v ∈ seen) : g.search seen (.enter v :: tasks) = g.search seen tasks := by
  rw [search, if_neg fun hv => hv.2 (h hv.1)]

/-- Induction on the steps of a search. -/
theorem search_induction {motive : List α → List (Task α) → Prop}
    (done : ∀ seen, motive seen [])
    (leave : ∀ seen v tasks, motive seen tasks → motive seen (.leave v :: tasks))
    (enter : ∀ seen v tasks, v ∈ g.nodes → v ∉ seen →
      motive (v :: seen) ((g.successors v).map .enter ++ .leave v :: tasks) →
      motive seen (.enter v :: tasks))
    (skip : ∀ seen v tasks, (v ∈ g.nodes → v ∈ seen) → motive seen tasks →
      motive seen (.enter v :: tasks))
    (seen : List α) (tasks : List (Task α)) : motive seen tasks := by
  induction seen, tasks using search.induct g with
  | case1 seen => exact done seen
  | case2 seen v tasks ih => exact leave seen v tasks ih
  | case3 seen v tasks hv ih => exact enter seen v tasks hv.1 hv.2 (by simpa using ih)
  | case4 seen v tasks hv ih => exact skip seen v tasks (by simpa using hv) ih

/-! ## What a search leaves -/

variable {g}

/-- A node is left because that was a task, or it is reached from a node to enter. -/
theorem search_sound {seen : List α} {tasks : List (Task α)} {w : α}
    (h : w ∈ g.search seen tasks) :
    .leave w ∈ tasks ∨ ∃ v, .enter v ∈ tasks ∧ v ∈ g.nodes ∧ ReflTransGen g.Edge v w := by
  induction seen, tasks using search_induction g with
  | done seen => simp [search] at h
  | leave seen u tasks ih =>
    rw [search_leave] at h
    rcases List.mem_cons.1 h with rfl | h
    · exact .inl List.mem_cons_self
    · rcases ih h with hleave | ⟨v, hv, hv'⟩
      · exact .inl (List.mem_cons_of_mem _ hleave)
      · exact .inr ⟨v, List.mem_cons_of_mem _ hv, hv'⟩
  | enter seen u tasks hn hs ih =>
    rw [search_enter g tasks hn hs] at h
    rcases ih h with hleave | ⟨v, hv, hv', hr⟩
    · -- The only new node to leave is the one that is entered.
      have hleave : w = u ∨ .leave w ∈ tasks := by simpa using hleave
      rcases hleave with rfl | hleave
      · exact .inr ⟨w, List.mem_cons_self, hn, .refl⟩
      · exact .inl (List.mem_cons_of_mem _ hleave)
    · have hv : v ∈ g.successors u ∨ .enter v ∈ tasks := by simpa using hv
      rcases hv with hv | hv
      · exact .inr ⟨u, List.mem_cons_self, hn, .head ⟨hv, hv'⟩ hr⟩
      · exact .inr ⟨v, List.mem_cons_of_mem _ hv, hv', hr⟩
  | skip seen u tasks hu ih =>
    rw [search_skip g tasks hu] at h
    rcases ih h with hleave | ⟨v, hv, hv'⟩
    · exact .inl (List.mem_cons_of_mem _ hleave)
    · exact .inr ⟨v, List.mem_cons_of_mem _ hv, hv'⟩

theorem mem_search_of_leave {seen : List α} {tasks : List (Task α)} {v : α}
    (h : .leave v ∈ tasks) : v ∈ g.search seen tasks := by
  induction seen, tasks using search_induction g with
  | done seen => cases h
  | leave seen u tasks ih =>
    rw [search_leave]
    rcases List.mem_cons.1 h with hu | h
    · cases hu
      exact List.mem_cons_self
    · exact List.mem_cons_of_mem _ (ih h)
  | enter seen u tasks hn hs ih =>
    rw [search_enter g tasks hn hs]
    have hleave : Task.leave v ∈ tasks := by simpa using h
    exact ih (by simp [hleave])
  | skip seen u tasks hu ih =>
    rw [search_skip g tasks hu]
    exact ih (by simpa using h)

theorem mem_search_of_enter {seen : List α} {tasks : List (Task α)} {v : α}
    (h : .enter v ∈ tasks) (hv : v ∈ g.nodes) : v ∈ seen ∨ v ∈ g.search seen tasks := by
  induction seen, tasks using search_induction g with
  | done seen => cases h
  | leave seen u tasks ih =>
    rw [search_leave]
    exact (ih (by simpa using h)).imp_right (List.mem_cons_of_mem _)
  | enter seen u tasks hn hs ih =>
    rw [search_enter g tasks hn hs]
    by_cases hvu : v = u
    · exact .inr (mem_search_of_leave (by simp [hvu]))
    · have hlater : .enter v ∈ tasks := by simpa [hvu] using h
      exact (ih (by simp [hlater])).imp_left fun hseen => List.mem_of_ne_of_mem hvu hseen
  | skip seen u tasks hu ih =>
    rw [search_skip g tasks hu]
    rcases List.mem_cons.1 h with hvu | h
    · cases hvu
      exact .inl (hu hv)
    · exact ih h

/-- Behind a node that the search has entered, every edge leads to one that has been entered. -/
theorem mem_search_of_edge {seen : List α} {tasks : List (Task α)} {v w : α}
    (h : v ∈ g.search seen tasks) (hv : .leave v ∉ tasks) (he : g.Edge v w) :
    w ∈ seen ∨ w ∈ g.search seen tasks := by
  induction seen, tasks using search_induction g with
  | done seen => simp [search] at h
  | leave seen u tasks ih =>
    rw [search_leave] at h ⊢
    have hne : v ≠ u := by
      rintro rfl
      exact hv List.mem_cons_self
    have hout := ih (List.mem_of_ne_of_mem hne h) fun hleave => hv (List.mem_cons_of_mem _ hleave)
    exact hout.imp_right (List.mem_cons_of_mem _)
  | enter seen u tasks hn hs ih =>
    rw [search_enter g tasks hn hs] at h ⊢
    by_cases hwu : w = u
    · exact .inr (mem_search_of_leave (by simp [hwu]))
    · have hout : w ∈ u :: seen ∨
          w ∈ g.search (u :: seen) ((g.successors u).map .enter ++ .leave u :: tasks) := by
        by_cases hvu : v = u
        · subst hvu
          exact mem_search_of_enter (by simp [he.1]) he.2
        · exact ih h (by simpa [hvu] using hv)
      exact hout.imp_left fun hseen => List.mem_of_ne_of_mem hwu hseen
  | skip seen u tasks hu ih =>
    rw [search_skip g tasks hu] at h ⊢
    exact ih h fun hleave => hv (List.mem_cons_of_mem _ hleave)

/-- What is reachable is the transitive closure of the edges. -/
theorem mem_reachable {v w : α} : w ∈ g.reachable v ↔ TransGen g.Edge v w := by
  constructor
  · intro h
    obtain hleave | ⟨u, hu, hn, hr⟩ := search_sound h
    · simp at hleave
    · exact .head' ⟨by simpa using hu, hn⟩ hr
  · intro h
    induction h with
    | single he => exact (mem_search_of_enter (by simp [he.1]) he.2).resolve_left List.not_mem_nil
    | tail _ he ih => exact (mem_search_of_edge ih (by simp) he).resolve_left List.not_mem_nil

/-- Only nodes are left. -/
theorem mem_finishOrder {v : α} : v ∈ g.finishOrder ↔ v ∈ g.nodes := by
  constructor
  · intro h
    obtain hleave | ⟨u, -, hn, hr⟩ := search_sound h
    · simp at hleave
    · rcases reflTransGen_iff_eq_or_transGen.1 hr with rfl | hr
      · exact hn
      · exact mem_nodes_of_transGen hr
  · intro h
    exact (mem_search_of_enter (by simpa using h) h).resolve_left List.not_mem_nil

/-! ## Components that hold a cycle -/

theorem hasEdge_iff {v w : α} : g.hasEdge v w = true ↔ g.Edge v w := by
  simp [hasEdge, Edge]

namespace AreComponents

variable {components : List (List α)} {c : List α} {v : α} (h : g.AreComponents components)
include h

/-- A component holds a cycle if its nodes reach themselves along at least one edge. -/
theorem isCyclic_iff (hc : c ∈ components) (hv : v ∈ c) :
    g.isCyclic c = true ↔ TransGen g.Edge v v := by
  match c, hc, hv with
  | [u], hc, hv =>
    obtain rfl := List.mem_singleton.1 hv
    rw [isCyclic, hasEdge_iff]
    constructor
    · exact .single
    · intro hcycle
      obtain ⟨w, he, hr⟩ := TransGen.head'_iff.1 hcycle
      obtain rfl := List.mem_singleton.1 ((h.connected _ hc v hv w).2 ⟨.single he, hr⟩)
      exact he
  | u :: u' :: rest, hc, hv =>
    -- One of the first two nodes is another one, so there is a way to it and back.
    have hother : ∃ w ∈ u :: u' :: rest, w ≠ v := by
      have hne : u ≠ u' := by
        rintro rfl
        exact (List.nodup_cons.1 (h.nodup_of_mem hc)).1 List.mem_cons_self
      by_cases huv : u = v
      · exact ⟨u', by simp, fun hu' => hne (huv.trans hu'.symm)⟩
      · exact ⟨u, by simp, huv⟩
    obtain ⟨w, hw, hne⟩ := hother
    obtain ⟨hvw, hwv⟩ := (h.connected _ hc v hv w).1 hw
    refine iff_of_true rfl ?_
    exact .trans_left ((reflTransGen_iff_eq_or_transGen.1 hvw).resolve_left hne) hwv

/-- Such a component is the class of each of its nodes. -/
theorem mem_iff_onCycle (hc : c ∈ components) (hcyclic : g.isCyclic c = true) (hv : v ∈ c) (w : α) :
    w ∈ c ↔ g.OnCycle v w := by
  rw [h.connected c hc v hv]
  exact ⟨fun hw => hw.onCycle ((h.isCyclic_iff hc hv).1 hcyclic), OnCycle.connected⟩

/-- Each node that reaches itself is in such a component. -/
theorem exists_isCyclic (hv : TransGen g.Edge v v) :
    ∃ c ∈ components, g.isCyclic c = true ∧ v ∈ c := by
  obtain ⟨c, hc, hvc⟩ := h.exists_mem (mem_nodes_of_transGen hv)
  exact ⟨c, hc, (h.isCyclic_iff hc hvc).2 hv, hvc⟩

end AreComponents

/-! ## The components that the search finds -/

variable (g) in
/-- The component of a node, looked up in what each node reaches. -/
def componentOf (v : α) : List α := component (g.nodes.map fun w => (w, g.reachable w)) v

variable (g) in
/-- The components of some nodes, each where its last node stands. -/
def componentsOf (vs : List α) : List (List α) :=
  componentsAt (g.nodes.map fun w => (w, g.reachable w)) vs

theorem mem_componentOf {v w : α} (hv : v ∈ g.nodes) : w ∈ g.componentOf v ↔ g.Connected v w := by
  simp only [componentOf, component, List.mem_map, List.mem_filter, List.any_eq_true,
    Bool.or_eq_true, Bool.and_eq_true, beq_iff_eq, List.contains_iff_mem]
  constructor
  · rintro ⟨_, ⟨⟨w, -, rfl⟩, rfl | ⟨hv, _, ⟨v, -, rfl⟩, rfl, hw⟩⟩, rfl⟩
    · exact .refl g w
    · exact OnCycle.connected ⟨mem_reachable.1 hw, mem_reachable.1 hv⟩
  · rintro ⟨hvw, hwv⟩
    rcases reflTransGen_iff_eq_or_transGen.1 hvw with rfl | hvw
    · exact ⟨_, ⟨⟨w, hv, rfl⟩, .inl rfl⟩, rfl⟩
    · have hback : TransGen g.Edge w v := by
        rcases reflTransGen_iff_eq_or_transGen.1 hwv with rfl | hback
        · exact hvw
        · exact hback
      exact ⟨_, ⟨⟨w, mem_nodes_of_transGen hvw, rfl⟩, .inr ⟨mem_reachable.2 hback,
        _, ⟨v, hv, rfl⟩, rfl, mem_reachable.2 hvw⟩⟩, rfl⟩

/-- The component of a node is left out if it is listed at a later node. -/
theorem componentsOf_cons (v : α) (vs : List α) :
    g.componentsOf (v :: vs) =
      if ∃ u ∈ vs, u ∈ g.componentOf v then g.componentsOf vs
      else g.componentOf v :: g.componentsOf vs := by
  rw [componentsOf, componentsAt]
  refine if_congr ?_ rfl rfl
  rw [List.any_eq_true]
  simp only [List.contains_iff_mem, componentOf]

/-- What is listed for some nodes are components of them. -/
theorem exists_of_mem_componentsOf {vs c : List α} (h : c ∈ g.componentsOf vs) :
    ∃ v ∈ vs, c = g.componentOf v := by
  induction vs with
  | nil => cases h
  | cons v vs ih =>
    rw [componentsOf_cons] at h
    split at h
    · obtain ⟨u, hu, hc⟩ := ih h
      exact ⟨u, List.mem_cons_of_mem _ hu, hc⟩
    · rcases List.mem_cons.1 h with rfl | h
      · exact ⟨v, List.mem_cons_self, rfl⟩
      · obtain ⟨u, hu, hc⟩ := ih h
        exact ⟨u, List.mem_cons_of_mem _ hu, hc⟩

theorem exists_mem_componentsOf {vs : List α} (hvs : vs ⊆ g.nodes) {v : α} (hv : v ∈ vs) :
    ∃ c ∈ g.componentsOf vs, v ∈ c := by
  induction vs generalizing v with
  | nil => cases hv
  | cons u vs ih =>
    obtain ⟨hu, hrest⟩ := List.cons_subset.1 hvs
    rw [componentsOf_cons]
    split
    · next hskip =>
      rcases List.mem_cons.1 hv with rfl | hv
      · -- The component is listed at a later node of it.
        obtain ⟨w, hw, hvw⟩ := hskip
        obtain ⟨c, hc, hwc⟩ := ih hrest hw
        obtain ⟨x, hx, rfl⟩ := exists_of_mem_componentsOf hc
        have hxw := (mem_componentOf (hrest hx)).1 hwc
        exact ⟨_, hc, (mem_componentOf (hrest hx)).2
          (hxw.trans ((mem_componentOf hu).1 hvw).symm)⟩
      · exact ih hrest hv
    · rcases List.mem_cons.1 hv with rfl | hv
      · exact ⟨_, List.mem_cons_self, (mem_componentOf hu).2 (.refl g v)⟩
      · obtain ⟨c, hc, hvc⟩ := ih hrest hv
        exact ⟨c, List.mem_cons_of_mem _ hc, hvc⟩

theorem pairwise_disjoint_componentsOf {vs : List α} (hvs : vs ⊆ g.nodes) :
    (g.componentsOf vs).Pairwise List.Disjoint := by
  induction vs with
  | nil => exact .nil
  | cons v vs ih =>
    obtain ⟨hv, hrest⟩ := List.cons_subset.1 hvs
    rw [componentsOf_cons]
    split
    · exact ih hrest
    · next hkeep =>
      refine .cons (fun c hc x hx hxc => ?_) (ih hrest)
      obtain ⟨u, hu, rfl⟩ := exists_of_mem_componentsOf hc
      have hvu := ((mem_componentOf hv).1 hx).trans ((mem_componentOf (hrest hu)).1 hxc).symm
      exact hkeep ⟨u, hu, (mem_componentOf hv).2 hvu⟩

/-- **The search finds the components.** -/
theorem areComponents_components (hn : g.nodes.Nodup) : g.AreComponents g.components := by
  have hnodes : g.finishOrder ⊆ g.nodes := fun v => mem_finishOrder.1
  have hclass : ∀ c ∈ g.components, ∃ v ∈ g.nodes, c = g.componentOf v := fun c hc =>
    (exists_of_mem_componentsOf hc).imp fun v hv => ⟨hnodes hv.1, hv.2⟩
  refine ⟨fun hnil => ?_, ?_, fun v => ?_, fun c hc v hv w => ?_⟩
  · obtain ⟨v, hv, hempty⟩ := hclass [] hnil
    exact List.not_mem_nil (hempty ▸ (mem_componentOf hv).2 (.refl g v))
  · refine List.nodup_flatten.2 ⟨fun c hc => ?_, pairwise_disjoint_componentsOf hnodes⟩
    obtain ⟨v, -, rfl⟩ := hclass c hc
    have hfst : ((g.nodes.map fun w => (w, g.reachable w)).map Prod.fst).Nodup := by
      simpa [List.map_map, Function.comp_def] using hn
    exact hfst.sublist (List.filter_sublist.map Prod.fst)
  · rw [List.mem_flatten]
    constructor
    · rintro ⟨c, hc, hv⟩
      obtain ⟨u, hu, rfl⟩ := hclass c hc
      rcases reflTransGen_iff_eq_or_transGen.1 ((mem_componentOf hu).1 hv).1 with rfl | hr
      · exact hu
      · exact mem_nodes_of_transGen hr
    · exact fun hv => exists_mem_componentsOf hnodes (mem_finishOrder.2 hv)
  · obtain ⟨u, hu, rfl⟩ := hclass c hc
    have huv := (mem_componentOf hu).1 hv
    rw [mem_componentOf hu]
    exact ⟨huv.symm.trans, huv.trans⟩

end Graph

end Metamodel
