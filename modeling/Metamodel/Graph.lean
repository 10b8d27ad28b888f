set_option autoImplicit false

/-! # Finite directed graphs

Depth-first search over a finite graph and its strongly connected components. `Graph.search` keeps a
list of things to do: to enter a node, and to leave it after everything entered from it. Entering
marks the node as seen, so each node is entered once and the search ends; nodes are listed in the
order in which they are left.

`Graph.components` lists each strongly connected component where the search leaves the last of its
nodes, which is the node it was first entered through. -/

namespace Metamodel

/-- A graph whose nodes are listed. Successors outside the list are ignored. -/
structure Graph (α : Type) where
  nodes : List α
  successors : α → List α

namespace Graph

variable {α : Type} [DecidableEq α]

/-! ## Depth-first search -/

/-- A step that a search still has to take. -/
inductive Task (α : Type)
  | enter (v : α)
  | leave (v : α)

/-- The nodes of the graph that are not among `seen`. -/
def unseen (g : Graph α) (seen : List α) : List α := g.nodes.filter (· ∉ seen)

theorem length_unseen_lt (g : Graph α) {seen : List α} {v : α} (hv : v ∈ g.nodes)
    (hs : v ∉ seen) : (g.unseen (v :: seen)).length < (g.unseen seen).length := by
  have hfilter : g.unseen (v :: seen) = (g.unseen seen).filter (· ≠ v) := by
    simp only [unseen, List.filter_filter]
    congr 1
    funext w
    simp [List.mem_cons]
  rw [hfilter]
  refine Nat.lt_of_le_of_ne (List.length_filter_le _ _) fun h => ?_
  have hall := List.length_filter_eq_length_iff.1 h
  simpa using hall v (by simp [unseen, hv, hs])

/-- The nodes a search leaves while it works through `tasks`, in that order; `seen` have been
entered before. -/
def search (g : Graph α) (seen : List α) : List (Task α) → List α
  | [] => []
  | .leave v :: tasks => v :: g.search seen tasks
  | .enter v :: tasks =>
    if v ∈ g.nodes ∧ v ∉ seen then
      g.search (v :: seen) ((g.successors v).map .enter ++ .leave v :: tasks)
    else g.search seen tasks
termination_by tasks => ((g.unseen seen).length, tasks.length)
decreasing_by
  · exact Prod.Lex.right _ (by simp)
  · exact Prod.Lex.left _ _ (g.length_unseen_lt (by simp_all) (by simp_all))
  · exact Prod.Lex.right _ (by simp)

/-- All nodes in the order in which a search from the first to the last node leaves them. -/
def finishOrder (g : Graph α) : List α := g.search [] (g.nodes.map .enter)

/-- The nodes that can be reached from `v` along at least one edge. -/
def reachable (g : Graph α) (v : α) : List α := g.search [] ((g.successors v).map .enter)

/-! ## Components -/

/-- The nodes that `v` reaches and that reach `v`, and `v` itself, given what each node reaches. -/
def component (reached : List (α × List α)) (v : α) : List α :=
  (reached.filter fun e => e.1 == v ||
    (e.2.contains v && reached.any fun f => f.1 == v && f.2.contains e.1)).map Prod.fst

/-- The components of some nodes, each where its last node stands. -/
def componentsAt (reached : List (α × List α)) : List α → List (List α)
  | [] => []
  | v :: rest =>
    let members := component reached v
    if rest.any members.contains then componentsAt reached rest
    else members :: componentsAt reached rest

/-- The strongly connected components, in the order in which a search leaves them. -/
def components (g : Graph α) : List (List α) :=
  componentsAt (g.nodes.map fun v => (v, g.reachable v)) g.finishOrder

/-- Whether there is an edge from `v` to `w`. -/
def hasEdge (g : Graph α) (v w : α) : Bool := (g.successors v).contains w && g.nodes.contains w

/-- Whether a component holds a cycle: it has more than one node, or its only one has an edge to
itself. -/
def isCyclic (g : Graph α) (members : List α) : Bool :=
  match members with
  | [] => false
  | [v] => g.hasEdge v v
  | _ :: _ :: _ => true

end Graph

end Metamodel
