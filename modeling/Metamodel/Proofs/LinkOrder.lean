import Mathlib.Data.Set.Finite.List
import Mathlib.Logic.Relation
import Mathlib.Order.WellFounded
import Metamodel.Definition.LinkOrder

set_option autoImplicit false

/-! # The order of definitions is sound and complete

`Definition.order` finds an order exactly when there is one. What an order has to respect is said
here without the passes: `LinksTo` follows links through children at any depth, `Needs` is the graph
of the links between definitions that are not satisfied from outside, `Resolved` says that every
link leads somewhere and `Acyclic` that no definition needs itself in the end.

The work is done by two invariants. What is placed keeps its targets in front of it
(`TargetsFirst`), so a definition's place is a rank that every link lowers, and a cycle cannot be
ordered. And a pass that places nothing leaves definitions each of which needs another one that is
left (`isReady_eq_false_of_mem_later`), so a finite graph closes a cycle among them. -/

namespace Metamodel

namespace Definition

open Relation

/-! ## Links at any depth -/

/-- The definition, or one nested in it at any depth, links to a name. -/
inductive LinksTo : Definition → String → Prop
  | own {d : Definition} {l : String × List String} {name : String} (hl : l ∈ d.links)
    (hn : name ∈ l.2) : LinksTo d name
  | nested {d c : Definition} {e : String × List Definition} {name : String} (he : e ∈ d.children)
    (hc : c ∈ e.2) (h : LinksTo c name) : LinksTo d name

theorem mem_targets_ownLinks {d : Definition} {name : String} :
    name ∈ d.ownLinks.map Link.target ↔ ∃ l ∈ d.links, name ∈ l.2 := by
  simp [ownLinks, List.mem_flatMap]

/-- The targets of all links of a definition, own and nested ones. -/
theorem targets_allLinks (d : Definition) :
    d.allLinks.map Link.target = d.ownLinks.map Link.target ++
      d.children.flatMap fun e => e.2.flatMap fun c => c.allLinks.map Link.target := by
  rw [allLinks]
  simp [List.map_flatMap]

/-- The links that are collected are those that stand somewhere in the definition. -/
theorem linksTo_iff {d : Definition} {name : String} :
    d.LinksTo name ↔ name ∈ d.allLinks.map Link.target := by
  constructor
  · intro h
    induction h with
    | own hl hn =>
      rw [targets_allLinks]
      exact List.mem_append_left _ (mem_targets_ownLinks.2 ⟨_, hl, hn⟩)
    | nested he hc _ ih =>
      rw [targets_allLinks]
      exact List.mem_append_right _ (List.mem_flatMap.2 ⟨_, he, List.mem_flatMap.2 ⟨_, hc, ih⟩⟩)
  · induction d using allLinks.induct with
    | case1 d ih =>
      rw [targets_allLinks, List.mem_append]
      rintro (h | h)
      · obtain ⟨l, hl, hn⟩ := mem_targets_ownLinks.1 h
        exact .own hl hn
      · obtain ⟨e, he, h⟩ := List.mem_flatMap.1 h
        obtain ⟨c, hc, h⟩ := List.mem_flatMap.1 h
        exact .nested he hc (ih e he c hc h)

variable (isExternal : String → Bool)

theorem mem_internalTargets {d : Definition} {name : String} :
    name ∈ d.internalTargets isExternal ↔ d.LinksTo name ∧ isExternal name = false := by
  simp only [internalTargets, List.mem_filter, linksTo_iff, Bool.not_eq_eq_eq_not, Bool.not_true]

theorem isReady_iff {placed : List String} {d : Definition} :
    d.isReady isExternal placed = true ↔
      ∀ name, d.LinksTo name → isExternal name = false → name ∈ placed := by
  simp only [isReady, List.all_eq_true, mem_internalTargets, List.contains_iff_mem, and_imp]

/-! ## What an order has to respect -/

/-- Every link leads outside or to one of the definitions. -/
def Resolved (ds : List Definition) : Prop :=
  ∀ d ∈ ds, ∀ name, d.LinksTo name → isExternal name = true ∨ name ∈ keys ds

/-- The graph of the links between definitions that are not satisfied from outside. -/
def Needs (ds : List Definition) (key target : String) : Prop :=
  target ∈ keys ds ∧ isExternal target = false ∧ ∃ d ∈ ds, d.key = key ∧ d.LinksTo target

/-- No definition needs itself, directly or through others. -/
def Acyclic (ds : List Definition) : Prop :=
  ∀ key, ¬TransGen (Needs isExternal ds) key key

/-- Every target that is not satisfied from outside stands before the definition that links to
it. -/
def TargetsFirst (ds : List Definition) : Prop :=
  ∀ before d after, ds = before ++ d :: after →
    ∀ name, d.LinksTo name → isExternal name = false → name ∈ keys before

theorem orphans_eq_nil_iff {ds : List Definition} :
    orphans isExternal ds = [] ↔ Resolved isExternal ds := by
  simp only [orphans, Resolved, List.flatMap_eq_nil_iff, List.map_eq_nil_iff,
    List.filter_eq_nil_iff, linksTo_iff, List.mem_map]
  constructor
  · rintro h d hd name ⟨l, hl, rfl⟩
    simpa [Decidable.or_iff_not_imp_left] using h d hd l hl
  · intro h d hd l hl
    simpa [Decidable.or_iff_not_imp_left] using h d hd l.target ⟨l, hl, rfl⟩

theorem exists_unresolved_of_mem_orphans {ds : List Definition} {e : LinkError}
    (h : e ∈ orphans isExternal ds) : ∃ key path missing, e = .unresolved key path missing := by
  obtain ⟨d, -, h⟩ := List.mem_flatMap.1 h
  obtain ⟨l, -, rfl⟩ := List.mem_map.1 h
  exact ⟨_, _, _, rfl⟩

/-! ## One pass -/

/-- A pass only distributes the definitions. -/
theorem perm_pass (placed : List String) (ds : List Definition) :
    ((pass isExternal placed ds).1 ++ (pass isExternal placed ds).2).Perm ds := by
  fun_induction pass isExternal placed ds with
  | case1 placed => exact .refl _
  | case2 placed d ds h r ih => exact ih.cons d
  | case3 placed d ds h r ih => exact List.perm_middle.trans (ih.cons d)

/-- What a pass places has its targets among what was placed or stands further in front. -/
theorem targetsFirst_pass {placed : List String} {ds before after : List Definition}
    {d : Definition} (h : (pass isExternal placed ds).1 = before ++ d :: after) :
    d.isReady isExternal (placed ++ keys before) = true := by
  induction ds generalizing placed before with
  | nil => simp [pass] at h
  | cons c ds ih =>
    by_cases hc : c.isReady isExternal placed = true
    · simp only [pass, if_pos hc] at h
      cases before with
      | nil =>
        obtain ⟨rfl, -⟩ := List.cons.inj h
        simpa [Named.names] using hc
      | cons b before =>
        obtain ⟨rfl, hrest⟩ := List.cons.inj h
        have hd := ih hrest
        rw [isReady_iff] at hd ⊢
        intro name hl he
        rcases List.mem_append.1 (hd name hl he) with hp | hb
        · rcases List.mem_cons.1 hp with rfl | hp
          · exact List.mem_append_right _ (List.mem_cons_self ..)
          · exact List.mem_append_left _ hp
        · exact List.mem_append_right _ (List.mem_cons_of_mem _ hb)
    · simp only [pass, if_neg hc] at h
      exact ih h

/-- What a pass leaves was not ready when it began. -/
theorem isReady_eq_false_of_mem_later {placed : List String} {ds : List Definition}
    {d : Definition} (h : d ∈ (pass isExternal placed ds).2) :
    d.isReady isExternal placed = false := by
  induction ds generalizing placed with
  | nil => simp [pass] at h
  | cons c ds ih =>
    by_cases hc : c.isReady isExternal placed = true
    · simp only [pass, if_pos hc] at h
      have hd := ih h
      -- more was placed when `d` was looked at than when the pass began
      by_contra hn
      have hr := (isReady_iff isExternal).1 (by simpa using hn)
      have hmore : d.isReady isExternal (c.key :: placed) = true :=
        (isReady_iff isExternal).2 fun name hl he => List.mem_cons_of_mem _ (hr name hl he)
      simp [hd] at hmore
    · simp only [pass, if_neg hc] at h
      rcases List.mem_cons.1 h with rfl | h
      · simpa using hc
      · exact ih h

/-! ## All passes -/

theorem keys_append (ds cs : List Definition) : keys (ds ++ cs) = keys ds ++ keys cs := by
  simp [Named.names]

theorem targetsFirst_nil : TargetsFirst isExternal [] := by
  intro before d after h
  simp at h

/-- Placing what a pass finds ready keeps targets in front. -/
theorem targetsFirst_append_pass {placed : List Definition} (h : TargetsFirst isExternal placed)
    (left : List Definition) :
    TargetsFirst isExternal (placed ++ (pass isExternal (keys placed) left).1) := by
  intro before d after hs name hl he
  -- The definition stands in what the pass has placed, or in what was placed before.
  rcases List.append_eq_append_iff.1 hs with ⟨front, rfl, hp⟩ | ⟨back, rfl, hp⟩
  · have hr := targetsFirst_pass isExternal hp
    rw [← keys_append] at hr
    exact (isReady_iff isExternal).1 hr name hl he
  · cases back with
    | nil =>
      have hp' : (pass isExternal (keys (before ++ [])) left).1 = [] ++ d :: after := hp.symm
      have hr := targetsFirst_pass isExternal hp'
      simpa [Named.names] using (isReady_iff isExternal).1 hr name hl he
    | cons c back =>
      obtain ⟨rfl, hp⟩ := List.cons.inj hp
      exact h before d back rfl name hl he

section Passes

variable (components : Graph String → List (List String))

/-- The passes end with a cycle where one places nothing. -/
theorem passes_of_pass_nil {placed left later : List Definition} (hne : left ≠ [])
    (hp : pass isExternal (keys placed) left = ([], later)) :
    passes isExternal components placed left = .error (cyclicError isExternal components later) := by
  rw [passes, if_neg hne]
  split
  · next hq =>
    rw [hp] at hq
    cases hq
    rfl
  · next hq =>
    rw [hp] at hq
    cases hq

/-- The passes go on where one places something. -/
theorem passes_of_pass_cons {placed left now later : List Definition} {d : Definition}
    (hne : left ≠ []) (hp : pass isExternal (keys placed) left = (d :: now, later)) :
    passes isExternal components placed left = passes isExternal components (placed ++ d :: now) later := by
  rw [passes, if_neg hne]
  split
  · next hq =>
    rw [hp] at hq
    cases hq
  · next hq =>
    rw [hp] at hq
    cases hq
    rfl

/-- How the passes end: either all is placed, with targets in front, or some definitions are left
none of which is ready. -/
theorem passes_cases {placed : List Definition} (left : List Definition)
    (h : TargetsFirst isExternal placed) :
    (∃ out, passes isExternal components placed left = .ok out ∧ out.Perm (placed ++ left) ∧
      TargetsFirst isExternal out) ∨
    (∃ done stuck, passes isExternal components placed left = .error (cyclicError isExternal components stuck) ∧
      (done ++ stuck).Perm (placed ++ left) ∧ stuck ≠ [] ∧
      ∀ d ∈ stuck, d.isReady isExternal (keys done) = false) := by
  -- On the passes: none is left, one places nothing, or one places some and the next one follows.
  induction placed, left using passes.induct isExternal with
  | case1 placed =>
    left
    exact ⟨placed, by rw [passes, if_pos rfl], by simp, h⟩
  | case2 placed left hleft later hp =>
    right
    have hperm := perm_pass isExternal (keys placed) left
    rw [hp, List.nil_append] at hperm
    refine ⟨placed, later, passes_of_pass_nil isExternal components hleft hp, hperm.append_left _, ?_, ?_⟩
    · rintro rfl
      exact hleft hperm.nil_eq.symm
    · intro d hd
      have hd' : d ∈ (pass isExternal (keys placed) left).2 := by rw [hp]; exact hd
      exact isReady_eq_false_of_mem_later isExternal hd'
  | case3 placed left hleft d now later hp ih =>
    have hperm : (placed ++ d :: now ++ later).Perm (placed ++ left) := by
      have := perm_pass isExternal (keys placed) left
      rw [hp] at this
      rw [List.append_assoc]
      exact this.append_left _
    have hfirst : TargetsFirst isExternal (placed ++ d :: now) := by
      have := targetsFirst_append_pass isExternal h left
      rwa [hp] at this
    rw [passes_of_pass_cons isExternal components hleft hp]
    rcases ih hfirst with ⟨out, ho, hout, hf⟩ | ⟨done, stuck, he, hs, hne, hr⟩
    · exact .inl ⟨out, ho, hout.trans hperm, hf⟩
    · exact .inr ⟨done, stuck, he, hs.trans hperm, hne, hr⟩

end Passes

/-! ## Ranks and cycles -/

/-- In an order, a link leads to an earlier place. -/
theorem idxOf_lt_of_needs {ds out : List Definition} {key target : String} (hperm : out.Perm ds)
    (hd : (keys ds).Nodup) (hf : TargetsFirst isExternal out)
    (h : Needs isExternal ds key target) :
    (keys out).idxOf target < (keys out).idxOf key := by
  obtain ⟨-, he, d, hm, rfl, hl⟩ := h
  obtain ⟨before, after, rfl⟩ := List.append_of_mem (hperm.mem_iff.2 hm)
  have hnodup : (keys (before ++ d :: after)).Nodup := (hperm.map _).nodup_iff.2 hd
  have ht := hf before d after rfl target hl he
  rw [keys_append] at hnodup ⊢
  have hk : d.key ∉ keys before := fun hk =>
    (List.nodup_append.1 hnodup).2.2 _ hk _ (List.mem_cons_self ..) rfl
  calc (keys before ++ keys (d :: after)).idxOf target
      = (keys before).idxOf target := List.idxOf_append_of_mem ht
    _ < (keys before).length := List.idxOf_lt_length_of_mem ht
    _ ≤ (keys before ++ keys (d :: after)).idxOf d.key := by
        rw [List.idxOf_append_of_notMem hk]
        omega

/-- What has been ordered has no cycle. -/
theorem acyclic_of_targetsFirst {ds out : List Definition} (hperm : out.Perm ds)
    (hd : (keys ds).Nodup) (hf : TargetsFirst isExternal out) : Acyclic isExternal ds := by
  intro key hcycle
  have hlt : ∀ target, TransGen (Needs isExternal ds) key target →
      (keys out).idxOf target < (keys out).idxOf key := by
    intro target h
    induction h with
    | single h => exact idxOf_lt_of_needs isExternal hperm hd hf h
    | tail _ h ih => exact (idxOf_lt_of_needs isExternal hperm hd hf h).trans ih
  exact (hlt key hcycle).false

/-- In a finite set each element of which has a successor in it, each leads to one that leads back
to itself. -/
theorem exists_cycle_of_mem {α : Type} {r : α → α → Prop} {xs : List α}
    (h : ∀ x ∈ xs, ∃ y ∈ xs, r x y) {x : α} (hx : x ∈ xs) :
    ∃ c, ReflTransGen r x c ∧ TransGen r c c := by
  by_contra hacyclic
  -- Otherwise "comes after" is a strict order on the finitely many elements that `x` leads to, so
  -- one of them is last.
  let Led := {y // y ∈ xs ∧ ReflTransGen r x y}
  have : Finite Led := ((List.finite_toSet xs).subset fun _ hy => hy.1).to_subtype
  let after (y z : Led) : Prop := TransGen r z.1 y.1
  have : IsTrans _ after := ⟨fun _ _ _ hab hbc => hbc.trans hab⟩
  have : Std.Irrefl after := ⟨fun y hy => hacyclic ⟨y.1, y.2.2, hy⟩⟩
  have hwf : WellFounded after := Finite.wellFounded_of_trans_of_irrefl after
  obtain ⟨last, -, hlast⟩ := hwf.has_min Set.univ ⟨⟨x, hx, .refl⟩, trivial⟩
  obtain ⟨next, hn, hr⟩ := h last.1 last.2.1
  exact hlast ⟨next, hn, last.2.2.tail hr⟩ trivial (.single hr)

/-- Each definition that is left although every link leads somewhere needs one that is left. -/
theorem exists_needs_of_stuck {ds done stuck : List Definition} (hperm : (done ++ stuck).Perm ds)
    (hr : Resolved isExternal ds)
    (hstuck : ∀ d ∈ stuck, d.isReady isExternal (keys done) = false) {key : String}
    (hk : key ∈ keys stuck) : ∃ target ∈ keys stuck, Needs isExternal ds key target := by
  obtain ⟨d, hd, rfl⟩ := List.mem_map.1 hk
  have hds : d ∈ ds := hperm.mem_iff.1 (List.mem_append_right _ hd)
  have hnot := hstuck d hd
  rw [← Bool.not_eq_true, isReady_iff] at hnot
  push Not at hnot
  obtain ⟨name, hl, he, hn⟩ := hnot
  have hname : name ∈ keys ds := (hr d hds name hl).resolve_left (by simp [he])
  have hsplit : name ∈ keys done ++ keys stuck := by
    rw [← keys_append]
    exact (hperm.map _).mem_iff.2 hname
  exact ⟨name, (List.mem_append.1 hsplit).resolve_left hn, hname, he, d, hds, rfl, hl⟩

/-- Definitions that are left although every link leads somewhere hold a cycle. -/
theorem not_acyclic_of_stuck {ds done stuck : List Definition} (hperm : (done ++ stuck).Perm ds)
    (hr : Resolved isExternal ds) (hne : stuck ≠ [])
    (hstuck : ∀ d ∈ stuck, d.isReady isExternal (keys done) = false) :
    ¬Acyclic isExternal ds := by
  obtain ⟨d, hd⟩ := List.exists_mem_of_ne_nil stuck hne
  obtain ⟨key, -, hkey⟩ := exists_cycle_of_mem
    (fun _ => exists_needs_of_stuck isExternal hperm hr hstuck) (List.mem_map_of_mem hd)
  exact fun hacyclic => hacyclic key hkey

/-! ## The order -/

/-- An order holds every definition once, behind all it needs. -/
theorem perm_and_targetsFirst_of_order {ds out : List Definition}
    (h : order isExternal ds = .ok out) : out.Perm ds ∧ TargetsFirst isExternal out := by
  unfold order orderBy at h
  split at h
  · cases h
  · rcases passes_cases isExternal Graph.components ds (targetsFirst_nil isExternal) with
      ⟨out', ho, hperm, hf⟩ | ⟨done, stuck, he, -⟩
    · rw [ho] at h
      cases h
      exact ⟨hperm, hf⟩
    · rw [he] at h
      cases h

/-- **The order is sound and complete.** There is one exactly if every link leads somewhere and no
definition needs itself; it holds every definition once, behind all it needs. A link that leads
nowhere is reported ahead of any cycle. -/
theorem order_exact {ds : List Definition} (hd : (keys ds).Nodup) :
    ((∃ out, order isExternal ds = .ok out) ↔
      Resolved isExternal ds ∧ Acyclic isExternal ds) ∧
    (∀ out, order isExternal ds = .ok out → out.Perm ds ∧ TargetsFirst isExternal out) ∧
    (¬Resolved isExternal ds →
      ∃ key path missing, order isExternal ds = .error (.unresolved key path missing)) ∧
    (Resolved isExternal ds → ¬Acyclic isExternal ds →
      ∃ remaining cycles, order isExternal ds = .error (.cyclic remaining cycles)) := by
  refine ⟨?_, fun out => perm_and_targetsFirst_of_order isExternal, ?_, ?_⟩
  · constructor
    · rintro ⟨out, ho⟩
      obtain ⟨hperm, hf⟩ := perm_and_targetsFirst_of_order isExternal ho
      refine ⟨?_, acyclic_of_targetsFirst isExternal hperm hd hf⟩
      rw [← orphans_eq_nil_iff]
      unfold order orderBy at ho
      split at ho
      · cases ho
      · assumption
    · rintro ⟨hr, hacyclic⟩
      rw [order, orderBy, (orphans_eq_nil_iff isExternal).2 hr]
      rcases passes_cases isExternal Graph.components ds (targetsFirst_nil isExternal) with
        ⟨out, ho, -⟩ | ⟨done, stuck, -, hperm, hne, hstuck⟩
      · exact ⟨out, ho⟩
      · exact absurd hacyclic (not_acyclic_of_stuck isExternal hperm hr hne hstuck)
  · intro hr
    obtain ⟨e, es, hes⟩ := List.exists_cons_of_ne_nil (mt (orphans_eq_nil_iff isExternal).1 hr)
    have hmem : e ∈ orphans isExternal ds := by
      rw [hes]
      exact List.mem_cons_self ..
    obtain ⟨key, path, missing, rfl⟩ := exists_unresolved_of_mem_orphans isExternal hmem
    exact ⟨key, path, missing, by rw [order, orderBy, hes]⟩
  · intro hr hcyclic
    rw [order, orderBy, (orphans_eq_nil_iff isExternal).2 hr]
    rcases passes_cases isExternal Graph.components ds (targetsFirst_nil isExternal) with
      ⟨out, -, hperm, hf⟩ | ⟨done, stuck, he, -⟩
    · exact absurd (acyclic_of_targetsFirst isExternal hperm hd hf) hcyclic
    · exact ⟨_, _, he⟩

/-- Two definitions that link to each other, one of them from a child that also links outside. -/
def mutualLinks : List Definition :=
  let node : Entity := ⟨"Node", [], false⟩
  let part := (empty node "part" none).addLinks "ref" ["outside", "B"]
  [(empty node "A" none).addChild "parts" part, (empty node "B" none).addLinks "ref" ["A"]]

/-- Definitions that link to each other are reported as a cycle, although all their links lead
somewhere. -/
theorem order_exact_mutualLinks :
    (keys mutualLinks).Nodup ∧
      ∃ remaining cycles, order (· == "outside") mutualLinks = .error (.cyclic remaining cycles) := by
  have hd : (keys mutualLinks).Nodup := by decide
  have hr : Resolved (· == "outside") mutualLinks := by
    intro d hd name hl
    have hname : name = "outside" ∨ name = "B" ∨ name = "A" := by
      simp only [mutualLinks, List.mem_cons, List.not_mem_nil, or_false] at hd
      rcases hd with rfl | rfl
      · cases hl with
        | own hl _ => simp [addChild, empty] at hl
        | nested he hc hl =>
          simp only [addChild, empty, Named.extend, List.mem_singleton] at he
          subst he
          obtain rfl := List.mem_singleton.1 hc
          cases hl with
          | own hl hn => simp_all [addLinks, Named.extend]; tauto
          | nested he _ _ => simp [addLinks] at he
      · cases hl with
        | own hl hn => simp_all [addLinks, empty, Named.extend]
        | nested he _ _ => simp [addLinks, empty] at he
    rcases hname with rfl | rfl | rfl <;> decide
  have hAB : Needs (· == "outside") mutualLinks "A" "B" :=
    ⟨by decide, by decide, _, List.mem_cons_self .., rfl,
      .nested (List.mem_cons_self ..) (List.mem_cons_self ..)
        (.own (List.mem_cons_self ..) (by decide))⟩
  have hBA : Needs (· == "outside") mutualLinks "B" "A" :=
    ⟨by decide, by decide, _, List.mem_cons_of_mem _ (List.mem_cons_self ..), rfl,
      .own (List.mem_cons_self ..) (List.mem_cons_self ..)⟩
  exact ⟨hd, (order_exact (· == "outside") hd).2.2.2 hr fun h => h "A" (.head hAB (.single hBA))⟩

end Definition

end Metamodel
