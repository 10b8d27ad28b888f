import Metamodel.Proofs.SolvingPhases

set_option autoImplicit false

/-! # Links that lead nowhere

A link that is neither satisfied from outside nor leads to one of the definitions is reported before
anything else, and of several such links the first: the definitions in their order, in each of them
its own links and then those of its children, depth first.

When the links of a definition are collected, each one keeps the key of its owner only. A
`RoutedLink` also keeps the way to it, the keys of all definitions around it, so it can be said
whether a link belongs to the definition itself or to one nested in it, whatever keys these have. A
link of a nested definition is reported with the key of its owner in front of the field, unless the
owner has the key of the definition that is reported (`order_of_unresolved`); then the field is
reported as if the definition itself had it (`bare_field_of_namesake`). -/

namespace Metamodel

/-! ## Links and the way to them -/

/-- A link within a definition: the keys of the nested definitions around it, from the outside in,
its field and the name it links to. -/
structure RoutedLink where
  route : List String
  field : String
  target : String
deriving DecidableEq, Repr

namespace RoutedLink

/-- The link as it stands in a definition of the key `top`. -/
def toLink (l : RoutedLink) (top : String) : Link := ⟨l.route.getLastD top, l.field, l.target⟩

/-- The link seen from the definition around the one of the given key. -/
def nestedIn (key : String) (l : RoutedLink) : RoutedLink := { l with route := key :: l.route }

theorem toLink_nestedIn (l : RoutedLink) (key top : String) :
    (l.nestedIn key).toLink top = l.toLink key := by
  simp only [toLink, nestedIn, List.getLastD_cons]

/-- A link of the definition itself is reported by its field. -/
theorem path_of_own {l : RoutedLink} {top : String} (h : l.route = []) :
    (l.toLink top).path top = l.field := by
  simp [toLink, Link.path, h]

/-- A link of a nested definition of another key is reported behind that key. -/
theorem path_of_nested {l : RoutedLink} {top child : String} {outer : List String}
    (h : l.route = outer ++ [child]) (hne : child ≠ top) :
    (l.toLink top).path top = child ++ "." ++ l.field := by
  simp [toLink, Link.path, h, hne]

end RoutedLink

/-- A field is not its own name behind a key and a dot. -/
theorem dotted_ne (key field : String) : key ++ "." ++ field ≠ field := by
  intro h
  have hlength := congrArg String.length h
  simp only [String.length_append] at hlength
  have hdot : ".".length = 1 := rfl
  omega

namespace Definition

/-- Every link of a definition with the way to it: its own, then those of its children, depth
first. -/
def routedLinks (d : Definition) : List RoutedLink :=
  (d.links.flatMap fun l => l.2.map fun target => ⟨[], l.1, target⟩) ++
    d.children.flatMap fun e => e.2.flatMap fun c => c.routedLinks.map (.nestedIn c.key)
termination_by sizeOf d
decreasing_by exact sizeOf_child ‹_› ‹_›

/-- The links that are collected are the routed ones, in the same order. -/
theorem allLinks_eq_map (d : Definition) :
    d.allLinks = d.routedLinks.map (RoutedLink.toLink · d.key) := by
  induction d using allLinks.induct with
  | case1 d ih =>
    have hnested : ∀ e ∈ d.children, ∀ c ∈ e.2,
        (c.routedLinks.map (RoutedLink.nestedIn c.key)).map (RoutedLink.toLink · d.key) =
          c.allLinks := by
      intro e he c hc
      rw [ih e he c hc, List.map_map]
      exact List.map_congr_left fun l _ => l.toLink_nestedIn c.key d.key
    rw [allLinks, routedLinks, List.map_append, List.map_flatMap, List.map_flatMap]
    congr 1
    · simp [ownLinks, RoutedLink.toLink, Function.comp_def]
    · refine List.flatMap_congr fun e he => ?_
      rw [List.map_flatMap]
      exact List.flatMap_congr fun c hc => (hnested e he c hc).symm

/-- A definition links to the targets of its routed links. -/
theorem linksTo_iff_exists_routedLink {d : Definition} {name : String} :
    d.LinksTo name ↔ ∃ l ∈ d.routedLinks, l.target = name := by
  simp [linksTo_iff, allLinks_eq_map, RoutedLink.toLink]

variable (isExternal : String → Bool) {ds : List Definition}

/-! ## The first link that leads nowhere -/

/-- A name that is neither satisfied from outside nor the key of one of the definitions. -/
def Unresolved (ds : List Definition) (name : String) : Prop :=
  isExternal name = false ∧ name ∉ keys ds

instance (ds : List Definition) (name : String) : Decidable (Unresolved isExternal ds name) :=
  inferInstanceAs (Decidable (_ ∧ _))

/-- The link `l` of the definition `d` is the first one that leads nowhere: none does in the
definitions before `d`, nor in `d` before `l`. -/
def FirstUnresolved (ds : List Definition) (d : Definition) (l : RoutedLink) : Prop :=
  ∃ before after front back, ds = before ++ d :: after ∧ d.routedLinks = front ++ l :: back ∧
    Unresolved isExternal ds l.target ∧
    (∀ c ∈ before, ∀ k ∈ c.routedLinks, ¬Unresolved isExternal ds k.target) ∧
    ∀ k ∈ front, ¬Unresolved isExternal ds k.target

/-- If a link leads nowhere, one is the first to do so. -/
theorem exists_firstUnresolved
    (h : ∃ d ∈ ds, ∃ name, d.LinksTo name ∧ Unresolved isExternal ds name) :
    ∃ d l, FirstUnresolved isExternal ds d l := by
  have hnot : ¬∀ d ∈ ds, ∀ l ∈ d.routedLinks, ¬Unresolved isExternal ds l.target := by
    intro hall
    obtain ⟨d, hd, name, hlinks, hname⟩ := h
    obtain ⟨l, hl, rfl⟩ := linksTo_iff_exists_routedLink.1 hlinks
    exact hall d hd l hl hname
  obtain ⟨before, d, after, hds, hbefore, hd⟩ := Repository.exists_first_not hnot
  obtain ⟨front, l, back, hlinks, hfront, hl⟩ := Repository.exists_first_not hd
  exact ⟨d, l, before, after, front, back, hds, hlinks, not_not.1 hl, hbefore, hfront⟩

/-- The links of a definition that lead nowhere. -/
def unresolvedLinks (ds : List Definition) (d : Definition) : List RoutedLink :=
  d.routedLinks.filter fun l => decide (Unresolved isExternal ds l.target)

theorem orphans_eq_flatMap (ds : List Definition) :
    orphans isExternal ds = ds.flatMap fun d => (unresolvedLinks isExternal ds d).map fun l =>
      .unresolved d.key ((l.toLink d.key).path d.key) l.target := by
  refine List.flatMap_congr fun d _ => ?_
  have hcheck : ∀ l : RoutedLink,
      (!isExternal (l.toLink d.key).target && !(keys ds).contains (l.toLink d.key).target) =
        decide (Unresolved isExternal ds l.target) := by
    intro l
    rw [Bool.eq_iff_iff, decide_eq_true_eq]
    simp [Unresolved, RoutedLink.toLink]
  rw [allLinks_eq_map, List.filter_map, List.map_map]
  simp only [Function.comp_def, hcheck]
  rfl

/-- The first link that leads nowhere decides the error. -/
theorem order_of_firstUnresolved {d : Definition} {l : RoutedLink}
    (h : FirstUnresolved isExternal ds d l) :
    order isExternal ds =
      .error (.unresolved d.key ((l.toLink d.key).path d.key) l.target) := by
  obtain ⟨before, after, front, back, hds, hlinks, hl, hbefore, hfront⟩ := h
  have hnone : ∀ c ∈ before, unresolvedLinks isExternal ds c = [] := by
    intro c hc
    simpa [unresolvedLinks] using hbefore c hc
  have hfirst : ∃ rest, unresolvedLinks isExternal ds d = l :: rest := by
    have hskip : front.filter (fun k => decide (Unresolved isExternal ds k.target)) = [] := by
      simpa using hfront
    refine ⟨back.filter fun k => decide (Unresolved isExternal ds k.target), ?_⟩
    rw [unresolvedLinks, hlinks, List.filter_append, hskip, List.nil_append]
    exact List.filter_cons_of_pos (decide_eq_true hl)
  obtain ⟨rest, hrest⟩ := hfirst
  have hsplit := (orphans_eq_flatMap isExternal ds).trans (congrArg (List.flatMap _) hds)
  rw [List.flatMap_append, List.flatMap_eq_nil_iff.2 fun c hc => by rw [hnone c hc]; rfl,
    List.flatMap_cons, hrest] at hsplit
  rw [order, orderBy, hsplit]
  rfl

/-- **A link that leads nowhere is reported where it is.** If one does, the first one is reported:
the definition it stands in and its target. Its path is the field alone if the definition itself has
the link, and the field behind the key of the nested definition that has it, at whatever depth,
unless that has the key of the definition. -/
theorem order_of_unresolved
    (h : ∃ d ∈ ds, ∃ name, d.LinksTo name ∧ Unresolved isExternal ds name) :
    (∃ d l, FirstUnresolved isExternal ds d l) ∧
      ∀ d l, FirstUnresolved isExternal ds d l →
        ∃ path, order isExternal ds = .error (.unresolved d.key path l.target) ∧
          (l.route = [] → path = l.field) ∧
          ∀ outer child, l.route = outer ++ [child] → child ≠ d.key →
            path = child ++ "." ++ l.field ∧ path ≠ l.field := by
  refine ⟨exists_firstUnresolved isExternal h, fun d l hfirst => ?_⟩
  refine ⟨_, order_of_firstUnresolved isExternal hfirst, RoutedLink.path_of_own, ?_⟩
  intro outer child hroute hne
  rw [RoutedLink.path_of_nested hroute hne]
  exact ⟨rfl, dotted_ne child l.field⟩

/-- A box and a lid in a shelf, both with keys that occur elsewhere. The shelf has links that lead
somewhere, the lid two that do not, and so has a definition behind the shelf. -/
def furniture : List Definition :=
  let part : Entity := ⟨"Part", [], false⟩
  let lid := ((empty part "Wall" none).addLinks "ref" ["Shelf", "Hinge"]).addLinks "alt" ["Screw"]
  let box := ((empty part "Box" none).addLinks "ref" ["Wall"]).addChild "parts" lid
  [((empty part "Shelf" none).addChild "parts" box).addLinks "ref" ["Box", "Wall"],
    (empty part "Box" none).addLinks "ref" ["Nail"]]

theorem order_of_unresolved_furniture :
    (∃ d ∈ furniture, ∃ name, d.LinksTo name ∧ Unresolved (· == "Wall") furniture name) ∧
      order (· == "Wall") furniture = .error (.unresolved "Shelf" "Wall.ref" "Hinge") := by
  have hlinks : ∃ shelf box, furniture = [shelf, box] ∧ shelf.key = "Shelf" ∧
      shelf.routedLinks = [⟨[], "ref", "Box"⟩, ⟨[], "ref", "Wall"⟩, ⟨["Box"], "ref", "Wall"⟩,
        ⟨["Box", "Wall"], "ref", "Shelf"⟩] ++ ⟨["Box", "Wall"], "ref", "Hinge"⟩ ::
          [⟨["Box", "Wall"], "alt", "Screw"⟩] :=
    ⟨_, _, rfl, rfl, by decide +kernel⟩
  obtain ⟨shelf, box, hds, hkey, hroutes⟩ := hlinks
  have hfirst : FirstUnresolved (· == "Wall") furniture shelf ⟨["Box", "Wall"], "ref", "Hinge"⟩ :=
    ⟨[], [box], _, _, hds, hroutes, by decide, by simp, by decide⟩
  have hunresolved : ∃ d ∈ furniture, ∃ name, d.LinksTo name ∧
      Unresolved (· == "Wall") furniture name := by
    refine ⟨shelf, by simp [hds], "Hinge", ?_, by decide⟩
    exact linksTo_iff_exists_routedLink.2
      ⟨_, hroutes ▸ List.mem_append_right _ List.mem_cons_self, rfl⟩
  obtain ⟨path, horder, -, hpath⟩ := (order_of_unresolved _ hunresolved).2 _ _ hfirst
  obtain ⟨rfl, -⟩ := hpath ["Box"] "Wall" rfl (by simp [hkey])
  exact ⟨hunresolved, hkey ▸ horder⟩

/-- A definition with a child of its own key, which links to nothing. -/
def namesakes : List Definition :=
  let part : Entity := ⟨"Part", [], false⟩
  [(empty part "Box" none).addChild "parts" ((empty part "Box" none).addLinks "ref" ["Nail"])]

/-- The link of the child is reported by its field alone, as if the definition itself had it. -/
theorem bare_field_of_namesake :
    ∃ d l, FirstUnresolved (fun _ => false) namesakes d l ∧ l.route = ["Box"] ∧
      order (fun _ => false) namesakes = .error (.unresolved d.key l.field l.target) := by
  have hfirst : FirstUnresolved (fun _ => false) namesakes _ ⟨["Box"], "ref", "Nail"⟩ :=
    ⟨[], [], [], [], rfl, by decide +kernel, by decide, by simp, by simp⟩
  exact ⟨_, _, hfirst, rfl, order_of_firstUnresolved _ hfirst⟩

end Definition

end Metamodel
