import Metamodel.Definition.Basic
import Metamodel.Graph

set_option autoImplicit false

/-! # The order links ask for

A definition can be built once everything it links to is there. `Definition.order` puts definitions
into such an order, or says why there is none. Names that are satisfied from outside ask for no
order.

A link to a name that is neither outside nor among the definitions is reported first. Then passes
over the definitions place, in their order, each one whose targets are all placed; a definition
placed in a pass counts for those behind it at once. A pass that places nothing leaves definitions
that lie on a cycle or depend on one. The report names the cycles, for which it asks for the strongly
connected components of the graph of links; `Definition.orderBy` takes any function that finds
them. -/

namespace Metamodel

/-- Why definitions cannot be ordered by their links. -/
inductive LinkError
  /-- The link at `path` of the definition `key` names nothing. -/
  | unresolved (key path missing : String)
  /-- The remaining definitions wait for each other; `cycles` are the groups that do so in a
  circle. -/
  | cyclic (remaining : List String) (cycles : List (List String))
deriving DecidableEq, Repr

namespace LinkError

/-- The message for an error. -/
def message : LinkError → String
  | .unresolved key path missing =>
    "unresolved reference: \"" ++ key ++ "\"." ++ path ++ " -> \"" ++ missing ++ "\""
  | .cyclic remaining _ =>
    "unresolvable definitions: " ++ String.intercalate ", " remaining

/-- The identifier of the kind of error. -/
def code : LinkError → String
  | .unresolved .. => "modelbook::resolve::unresolved"
  | .cyclic .. => "modelbook::resolve::cycle"

/-- Advice on an error. -/
def help : LinkError → String
  | .unresolved _ _ missing =>
    "No definition named \"" ++ missing ++
      "\" was loaded and no prior notebook provides it. Load the source that defines it, " ++
      "or `declare` it if it lives in another module."
  | .cyclic .. =>
    "These definitions depend on each other through links and none of them can be built first. " ++
      "Break the cycle by removing one of the links."

end LinkError

/-- Where a link stands within the definition `top`: its field, behind the name of its owner if
that is another definition. -/
def Link.path (l : Link) (top : String) : String :=
  if l.owner = top then l.field else l.owner ++ "." ++ l.field

namespace Definition

variable (isExternal : String → Bool)

/-- The keys of some definitions. -/
abbrev keys (ds : List Definition) : List String := Named.names ds

/-- The targets of a definition that are not satisfied from outside. -/
def internalTargets (d : Definition) : List String :=
  (d.allLinks.map Link.target).filter (!isExternal ·)

/-- The links that name nothing, in the order of the definitions. -/
def orphans (ds : List Definition) : List LinkError :=
  ds.flatMap fun d =>
    (d.allLinks.filter fun l => !isExternal l.target && !(keys ds).contains l.target).map fun l =>
      .unresolved d.key (l.path d.key) l.target

/-- Whether all targets of a definition are satisfied from outside or placed. -/
def isReady (placed : List String) (d : Definition) : Bool :=
  (d.internalTargets isExternal).all placed.contains

/-- One pass: the definitions it places, and those it leaves. -/
def pass (placed : List String) : List Definition → List Definition × List Definition
  | [] => ([], [])
  | d :: ds =>
    if d.isReady isExternal placed then
      let r := pass (d.key :: placed) ds
      (d :: r.1, r.2)
    else
      let r := pass placed ds
      (r.1, d :: r.2)

theorem length_pass (placed : List String) (ds : List Definition) :
    (pass isExternal placed ds).1.length + (pass isExternal placed ds).2.length = ds.length := by
  induction ds generalizing placed with
  | nil => rfl
  | cons d ds ih =>
    by_cases h : d.isReady isExternal placed = true
    · have := ih (d.key :: placed)
      simp only [pass, if_pos h, List.length_cons]
      omega
    · have := ih placed
      simp only [pass, if_neg h, List.length_cons]
      omega

/-- The graph of the links between some definitions. If a key occurs twice, the last occurrence
stands for both; the targets of a key are listed from the last to the first. -/
def linkGraph (ds : List Definition) : Graph String where
  nodes := (keys ds).reverse.eraseDups.reverse
  successors key :=
    ((ds.filter (·.key == key)).flatMap (internalTargets isExternal)).eraseDups.reverse

section Components

variable (components : Graph String → List (List String))

/-- The error for definitions none of which can be placed. Of the strongly connected components those
are reported that hold a cycle. -/
def cyclicError (ds : List Definition) : LinkError :=
  let g := linkGraph isExternal ds
  .cyclic (keys ds)
    (((components g).filter g.isCyclic).map fun names =>
      names.mergeSort fun a b => decide (a ≤ b))

/-- Repeats passes over the definitions that are left, behind those that are placed. -/
def passes (placed left : List Definition) : Except LinkError (List Definition) :=
  if left = [] then .ok placed
  else
    match _h : pass isExternal (keys placed) left with
    | ([], later) => .error (cyclicError isExternal components later)
    | (d :: now, later) => passes (placed ++ d :: now) later
termination_by left.length
decreasing_by
  have := length_pass isExternal (keys placed) left
  rw [_h] at this
  simp only [List.length_cons] at this
  omega

/-- The definitions in an order in which each one stands behind those it links to, given how the
strongly connected components of a graph are found. -/
def orderBy (ds : List Definition) : Except LinkError (List Definition) :=
  match orphans isExternal ds with
  | e :: _ => .error e
  | [] => passes isExternal components [] ds

end Components

/-- The definitions in an order in which each one stands behind those it links to. -/
def order (ds : List Definition) : Except LinkError (List Definition) :=
  orderBy isExternal Graph.components ds

end Definition

end Metamodel
