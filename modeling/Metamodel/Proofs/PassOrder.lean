import Mathlib.Data.Set.Finite.Lattice
import Mathlib.Order.Lattice.Nat
import Metamodel.Proofs.LinkOrder
import Metamodel.Proofs.Steps

set_option autoImplicit false

/-! # The order is the stable order by passes

`Definition.passes` only hands on what has been placed so far. `Definition.rounds` keeps apart what
each pass places and what is left when a pass places nothing; `passes_eq_rounds` says that this is
what the passes do.

In which pass a definition is placed can be said without any of them (`NumbersPasses`): in the
first one, unless it waits for a target; for a target in front of it until the same pass, for one
behind it until the next. Such numbers exist for whatever can be ordered, and whichever numbers meet
the equation, pass `i` places the definitions of number `i`, in the order they are given in
(`pass_eq_filter` for one pass, `rounds_eq_filter` for all). So the order is the stable one by
numbers, and what is ordered already stays as it is (`order_stable`). -/

namespace Metamodel

namespace Definition

variable (isExternal : String → Bool)

/-! ## The passes one by one -/

/-- What each pass places, one group for each, and what is left when a pass places nothing. -/
def rounds (placed left : List Definition) : List (List Definition) × List Definition :=
  match _h : pass isExternal (keys placed) left with
  | ([], later) => ([], later)
  | (d :: now, later) =>
    let r := rounds (placed ++ d :: now) later
    ((d :: now) :: r.1, r.2)
termination_by left.length
decreasing_by
  have := length_pass isExternal (keys placed) left
  rw [_h] at this
  simp only [List.length_cons] at this
  omega

theorem rounds_of_pass_nil {placed left later : List Definition}
    (hp : pass isExternal (keys placed) left = ([], later)) :
    rounds isExternal placed left = ([], later) := by
  rw [rounds]
  split
  · next hq =>
    rw [hp] at hq
    cases hq
    rfl
  · next hq =>
    rw [hp] at hq
    cases hq

theorem rounds_of_pass_cons {placed left now later : List Definition} {d : Definition}
    (hp : pass isExternal (keys placed) left = (d :: now, later)) :
    rounds isExternal placed left =
      ((d :: now) :: (rounds isExternal (placed ++ d :: now) later).1,
        (rounds isExternal (placed ++ d :: now) later).2) := by
  rw [rounds]
  split
  · next hq =>
    rw [hp] at hq
    cases hq
  · next hq =>
    rw [hp] at hq
    cases hq
    rfl

/-- The passes succeed if nothing is left, and give the groups one behind the other. -/
theorem passes_eq_rounds (components : Graph String → List (List String))
    (placed left : List Definition) :
    passes isExternal components placed left =
      if (rounds isExternal placed left).2 = [] then
        .ok (placed ++ (rounds isExternal placed left).1.flatten)
      else .error (cyclicError isExternal components (rounds isExternal placed left).2) := by
  induction placed, left using passes.induct isExternal with
  | case1 placed =>
    have hp : pass isExternal (keys placed) [] = ([], []) := rfl
    rw [passes, if_pos rfl, rounds_of_pass_nil isExternal hp]
    simp
  | case2 placed left hleft later hp =>
    have hlater : later ≠ [] := by
      rintro rfl
      have hperm := perm_pass isExternal (keys placed) left
      rw [hp] at hperm
      exact hleft hperm.nil_eq.symm
    rw [passes_of_pass_nil isExternal components hleft hp, rounds_of_pass_nil isExternal hp, if_neg hlater]
  | case3 placed left hleft d now later hp ih =>
    rw [passes_of_pass_cons isExternal components hleft hp, ih, rounds_of_pass_cons isExternal hp]
    simp

/-! ## What the rounds keep -/

theorem sublist_pass (placed : List String) (ds : List Definition) :
    (pass isExternal placed ds).1.Sublist ds ∧ (pass isExternal placed ds).2.Sublist ds := by
  fun_induction pass isExternal placed ds with
  | case1 placed => exact ⟨.slnil, .slnil⟩
  | case2 placed d ds h r ih => exact ⟨ih.1.cons_cons d, ih.2.cons d⟩
  | case3 placed d ds h r ih => exact ⟨ih.1.cons d, ih.2.cons_cons d⟩

/-- What is left stands as it was given. -/
theorem sublist_rounds (placed left : List Definition) :
    (rounds isExternal placed left).2.Sublist left := by
  induction placed, left using rounds.induct isExternal with
  | case1 placed left later hp =>
    rw [rounds_of_pass_nil isExternal hp]
    simpa [hp] using (sublist_pass isExternal (keys placed) left).2
  | case2 placed left d now later hp ih =>
    rw [rounds_of_pass_cons isExternal hp]
    refine ih.trans ?_
    simpa [hp] using (sublist_pass isExternal (keys placed) left).2

theorem perm_rounds (placed left : List Definition) :
    ((rounds isExternal placed left).1.flatten ++ (rounds isExternal placed left).2).Perm left := by
  induction placed, left using rounds.induct isExternal with
  | case1 placed left later hp =>
    rw [rounds_of_pass_nil isExternal hp]
    simpa [hp] using perm_pass isExternal (keys placed) left
  | case2 placed left d now later hp ih =>
    have hperm := perm_pass isExternal (keys placed) left
    rw [hp] at hperm
    rw [rounds_of_pass_cons isExternal hp, List.flatten_cons, List.append_assoc]
    exact (ih.append_left _).trans hperm

theorem targetsFirst_rounds {placed : List Definition} (left : List Definition)
    (h : TargetsFirst isExternal placed) :
    TargetsFirst isExternal (placed ++ (rounds isExternal placed left).1.flatten) := by
  induction placed, left using rounds.induct isExternal with
  | case1 placed left later hp =>
    rw [rounds_of_pass_nil isExternal hp]
    simpa using h
  | case2 placed left d now later hp ih =>
    have hnext := targetsFirst_append_pass isExternal h left
    rw [hp] at hnext
    rw [rounds_of_pass_cons isExternal hp, List.flatten_cons, ← List.append_assoc]
    exact ih hnext

/-- What is left is not ready for all that has been placed. -/
theorem isReady_eq_false_of_mem_rounds {placed left : List Definition} {d : Definition}
    (h : d ∈ (rounds isExternal placed left).2) :
    d.isReady isExternal (keys (placed ++ (rounds isExternal placed left).1.flatten)) = false := by
  induction placed, left using rounds.induct isExternal with
  | case1 placed left later hp =>
    rw [rounds_of_pass_nil isExternal hp] at h ⊢
    have hd : d ∈ (pass isExternal (keys placed) left).2 := by rwa [hp]
    simpa using isReady_eq_false_of_mem_later isExternal hd
  | case2 placed left c now later hp ih =>
    rw [rounds_of_pass_cons isExternal hp] at h ⊢
    rw [List.flatten_cons, ← List.append_assoc]
    exact ih h

theorem ne_nil_of_mem_rounds {placed left group : List Definition}
    (h : group ∈ (rounds isExternal placed left).1) : group ≠ [] := by
  induction placed, left using rounds.induct isExternal with
  | case1 placed left later hp =>
    rw [rounds_of_pass_nil isExternal hp] at h
    cases h
  | case2 placed left d now later hp ih =>
    rw [rounds_of_pass_cons isExternal hp] at h
    rcases List.mem_cons.1 h with rfl | h
    · exact List.cons_ne_nil d now
    · exact ih h

/-- There are no more passes than definitions, since each places one at least. -/
theorem length_rounds_le (placed left : List Definition) :
    (rounds isExternal placed left).1.length ≤ left.length := by
  have hgroups : ∀ gs : List (List Definition), (∀ g ∈ gs, g ≠ []) →
      gs.length ≤ gs.flatten.length := by
    intro gs hne
    induction gs with
    | nil => exact Nat.le_refl 0
    | cons g gs ih =>
      have hg := List.length_pos_iff.2 (hne g List.mem_cons_self)
      have hgs := ih fun g hg => hne g (List.mem_cons_of_mem _ hg)
      simp only [List.length_cons, List.flatten_cons, List.length_append]
      omega
  calc (rounds isExternal placed left).1.length
      ≤ (rounds isExternal placed left).1.flatten.length :=
        hgroups _ fun _ => ne_nil_of_mem_rounds isExternal
    _ ≤ left.length := by
        have hlength := (perm_rounds isExternal placed left).length_eq
        rw [List.length_append] at hlength
        omega

/-- An order is what the rounds place, and they leave nothing. -/
theorem rounds_of_order {ds out : List Definition} (h : order isExternal ds = .ok out) :
    Resolved isExternal ds ∧ (rounds isExternal [] ds).2 = [] ∧
      out = (rounds isExternal [] ds).1.flatten := by
  unfold order orderBy at h
  split at h
  · cases h
  · next hnone =>
    rw [passes_eq_rounds] at h
    split at h
    · next hleft =>
      cases h
      exact ⟨(orphans_eq_nil_iff isExternal).1 hnone, hleft, rfl⟩
    · cases h

/-! ## Numbers of passes -/

/-- What the links of a definition ask of the pass that places it, if `number` gives the passes of
their targets: a target in front of it has to be placed by the same pass, one behind it by an
earlier one. -/
def asked (ds : List Definition) (number : String → Nat) (d : Definition) : Set Nat :=
  {n | n = 1 ∨ ∃ target, d.LinksTo target ∧ isExternal target = false ∧
    n = if (keys ds).idxOf target < (keys ds).idxOf d.key then number target
      else number target + 1}

/-- The number of each definition is the most that its links ask for, and at least 1. -/
def NumbersPasses (ds : List Definition) (number : String → Nat) : Prop :=
  ∀ d ∈ ds, IsGreatest (asked isExternal ds number d) (number d.key)

theorem asked_congr {ds : List Definition} {number number' : String → Nat} {d : Definition}
    (h : ∀ target, d.LinksTo target → isExternal target = false →
      number target = number' target) :
    asked isExternal ds number d = asked isExternal ds number' d := by
  ext n
  refine or_congr_right (exists_congr fun target => ?_)
  constructor
  · rintro ⟨hl, he, hn⟩
    exact ⟨hl, he, by rw [hn, h target hl he]⟩
  · rintro ⟨hl, he, hn⟩
    exact ⟨hl, he, by rw [hn, h target hl he]⟩

theorem exists_isGreatest_asked (ds : List Definition) (number : String → Nat) (d : Definition) :
    ∃ n, IsGreatest (asked isExternal ds number d) n := by
  have hfinite : (asked isExternal ds number d).Finite := by
    refine ((List.finite_toSet (d.internalTargets isExternal)).image fun target =>
      if (keys ds).idxOf target < (keys ds).idxOf d.key then number target
        else number target + 1).insert 1 |>.subset ?_
    rintro n (rfl | ⟨target, hl, he, rfl⟩)
    · exact Set.mem_insert _ _
    · exact Set.mem_insert_of_mem _
        ⟨target, (mem_internalTargets isExternal).2 ⟨hl, he⟩, rfl⟩
  have hne : (asked isExternal ds number d).Nonempty := ⟨1, .inl rfl⟩
  exact ⟨_, Nat.sSup_mem hne hfinite.bddAbove, fun n hn => le_csSup hfinite.bddAbove hn⟩

/-- Definitions that stand behind their targets can be numbered, one after the other. -/
theorem exists_numbers {out : List Definition} (ds : List Definition) (hd : (keys out).Nodup)
    (hf : TargetsFirst isExternal out) :
    ∃ number, ∀ d ∈ out, IsGreatest (asked isExternal ds number d) (number d.key) := by
  induction out using List.reverseRecOn with
  | nil => exact ⟨fun _ => 1, by simp⟩
  | append_singleton front d ih =>
    rw [keys_append] at hd
    have hfront : TargetsFirst isExternal front := by
      intro before c after hs
      exact hf before c (after ++ [d]) (by simp [hs])
    have hnew : d.key ∉ keys front := fun hk =>
      (List.nodup_append.1 hd).2.2 _ hk _ (List.mem_cons_self ..) rfl
    obtain ⟨number, hnumber⟩ := ih (List.nodup_append.1 hd).1 hfront
    obtain ⟨n, hn⟩ := exists_isGreatest_asked isExternal ds number d
    -- No link leads to the key that gets its number last.
    have hsame : ∀ target ∈ keys front, number target = Function.update number d.key n target := by
      intro target ht
      rw [Function.update_of_ne]
      rintro rfl
      exact hnew ht
    refine ⟨Function.update number d.key n, ?_⟩
    intro c hc
    rcases List.mem_append.1 hc with hc | hc
    · obtain ⟨before, after, rfl⟩ := List.append_of_mem hc
      rw [← asked_congr isExternal fun target hl he => hsame target ?_,
        ← hsame c.key (List.mem_map_of_mem hc)]
      · exact hnumber c hc
      · rw [keys_append]
        exact List.mem_append_left _ (hfront before c after rfl target hl he)
    · obtain rfl := List.mem_singleton.1 hc
      have hlinks : ∀ target, c.LinksTo target → isExternal target = false →
          number target = Function.update number c.key n target :=
        fun target hl he => hsame target (hf front c [] rfl target hl he)
      rw [← asked_congr isExternal hlinks, Function.update_self]
      exact hn

section Numbered

variable {ds : List Definition} {number : String → Nat}

theorem idxOf_lt_iff {front back : List Definition} {d : Definition}
    (hd : (keys (front ++ d :: back)).Nodup) {name : String} :
    (keys (front ++ d :: back)).idxOf name < (keys (front ++ d :: back)).idxOf d.key ↔
      name ∈ keys front := by
  rw [keys_append] at hd ⊢
  have hk : d.key ∉ keys front := fun hk =>
    (List.nodup_append.1 hd).2.2 _ hk _ (List.mem_cons_self ..) rfl
  have hplace : (keys front ++ keys (d :: back)).idxOf d.key = (keys front).length := by
    rw [List.idxOf_append_of_notMem hk]
    show _ + (d.key :: keys back).idxOf d.key = _
    simp
  rw [hplace]
  by_cases hname : name ∈ keys front
  · rw [List.idxOf_append_of_mem hname]
    exact iff_of_true (List.idxOf_lt_length_of_mem hname) hname
  · rw [List.idxOf_append_of_notMem hname]
    exact iff_of_false (by omega) hname

/-- A definition has a number up to `n` if the targets in front of it do, and those behind it have
smaller ones. -/
theorem NumbersPasses.le_iff {front back : List Definition} {d : Definition}
    (h : NumbersPasses isExternal (front ++ d :: back) number)
    (hd : (keys (front ++ d :: back)).Nodup) {n : Nat} :
    number d.key ≤ n ↔ 1 ≤ n ∧ ∀ target, d.LinksTo target → isExternal target = false →
      number target ≤ n ∧ (target ∉ keys front → number target < n) := by
  rw [isLUB_le_iff (h d (by simp)).isLUB, mem_upperBounds]
  constructor
  · intro hall
    refine ⟨hall 1 (.inl rfl), fun target hl he => ?_⟩
    have hle := hall _ (.inr ⟨target, hl, he, rfl⟩)
    by_cases ht : target ∈ keys front
    · rw [if_pos ((idxOf_lt_iff hd).2 ht)] at hle
      exact ⟨hle, absurd ht⟩
    · rw [if_neg (mt (idxOf_lt_iff hd).1 ht)] at hle
      exact ⟨by omega, fun _ => hle⟩
  · rintro ⟨hpos, hall⟩ m (rfl | ⟨target, hl, he, rfl⟩)
    · exact hpos
    · obtain ⟨hle, hlt⟩ := hall target hl he
      by_cases ht : target ∈ keys front
      · rwa [if_pos ((idxOf_lt_iff hd).2 ht)]
      · rw [if_neg (mt (idxOf_lt_iff hd).1 ht)]
        exact hlt ht

/-- One pass, begun when the numbers up to `i` are placed, places the next number. While it goes
through `rest`, the definitions of that number in front of it have been placed. -/
theorem pass_eq_filter (front : List Definition) {rest : List Definition}
    (hd : (keys (front ++ rest)).Nodup) (hr : Resolved isExternal (front ++ rest))
    (h : NumbersPasses isExternal (front ++ rest) number) {i : Nat} {placed : List String}
    (hplaced : ∀ name, name ∈ placed ↔ name ∈ keys (front ++ rest) ∧
      (number name ≤ i ∨ number name = i + 1 ∧ name ∈ keys front)) :
    pass isExternal placed (rest.filter fun d => i < number d.key) =
      (rest.filter fun d => number d.key = i + 1, rest.filter fun d => i + 1 < number d.key) := by
  induction rest generalizing front placed with
  | nil => rfl
  | cons d rest ih =>
    -- For the rest of the pass, `d` is one of those in front.
    have hshift : front ++ d :: rest = (front ++ [d]) ++ rest := by simp
    have hmem : ∀ name, name ∈ keys (front ++ [d]) ↔ name ∈ keys front ∨ name = d.key := by
      intro name
      rw [keys_append, List.mem_append]
      exact or_congr_right List.mem_singleton
    have hready : d.isReady isExternal placed = true ↔ number d.key ≤ i + 1 := by
      rw [isReady_iff, h.le_iff isExternal hd]
      constructor
      · intro hall
        refine ⟨by omega, fun target hl he => ?_⟩
        obtain ⟨-, hle | ⟨heq, hfront⟩⟩ := (hplaced target).1 (hall target hl he)
        · exact ⟨by omega, fun _ => by omega⟩
        · exact ⟨by omega, absurd hfront⟩
      · rintro ⟨-, hall⟩ target hl he
        obtain ⟨hle, hlt⟩ := hall target hl he
        refine (hplaced target).2
          ⟨(hr d (by simp) target hl).resolve_left (by simp [he]), ?_⟩
        by_cases hfront : target ∈ keys front
        · rcases Nat.lt_or_eq_of_le hle with hlt | heq
          · exact .inl (by omega)
          · exact .inr ⟨heq, hfront⟩
        · exact .inl (Nat.le_of_lt_succ (hlt hfront))
    -- Unless the pass places `d`, what is placed is the same for the rest of it.
    have hskip : number d.key ≠ i + 1 → ∀ name, name ∈ placed ↔
        name ∈ keys ((front ++ [d]) ++ rest) ∧
          (number name ≤ i ∨ number name = i + 1 ∧ name ∈ keys (front ++ [d])) := by
      intro hne name
      rw [hplaced, hshift, hmem]
      refine and_congr_right fun _ => or_congr_right (and_congr_right fun hn => ?_)
      refine (or_iff_left ?_).symm
      rintro rfl
      exact hne hn
    rcases Nat.lt_trichotomy (number d.key) (i + 1) with hlt | heq | hgt
    · rw [List.filter_cons_of_neg (by simpa using Nat.le_of_lt_succ hlt),
        List.filter_cons_of_neg (by simpa using hlt.ne),
        List.filter_cons_of_neg (by simpa using hlt.le)]
      have hrest := hskip hlt.ne
      rw [hshift] at hd hr h
      exact ih (front ++ [d]) hd hr h hrest
    · rw [List.filter_cons_of_pos (by simp [heq]), List.filter_cons_of_pos (by simp [heq]),
        List.filter_cons_of_neg (by simp [heq]), pass, if_pos (hready.2 heq.le)]
      have hrest : ∀ name, name ∈ d.key :: placed ↔ name ∈ keys ((front ++ [d]) ++ rest) ∧
          (number name ≤ i ∨ number name = i + 1 ∧ name ∈ keys (front ++ [d])) := by
        intro name
        rw [List.mem_cons, hplaced, ← hshift, hmem]
        constructor
        · rintro (rfl | ⟨hname, hle | ⟨hn, hfront⟩⟩)
          · exact ⟨List.mem_map_of_mem (by simp), .inr ⟨heq, .inr rfl⟩⟩
          · exact ⟨hname, .inl hle⟩
          · exact ⟨hname, .inr ⟨hn, .inl hfront⟩⟩
        · rintro ⟨hname, hle | ⟨hn, hfront | rfl⟩⟩
          · exact .inr ⟨hname, .inl hle⟩
          · exact .inr ⟨hname, .inr ⟨hn, hfront⟩⟩
          · exact .inl rfl
      rw [hshift] at hd hr h
      rw [ih (front ++ [d]) hd hr h hrest]
    · rw [List.filter_cons_of_pos (by simpa using Nat.lt_of_succ_lt hgt),
        List.filter_cons_of_neg (by simpa using hgt.ne'),
        List.filter_cons_of_pos (by simpa using hgt), pass,
        if_neg (mt hready.1 (Nat.not_le.2 hgt))]
      have hrest := hskip hgt.ne'
      rw [hshift] at hd hr h
      rw [ih (front ++ [d]) hd hr h hrest]

/-- A pass that begins when just the numbers up to `i` are placed places those of the next one. -/
theorem pass_eq_filter_of_placed (i : Nat) {placed : List String} (hd : (keys ds).Nodup)
    (hr : Resolved isExternal ds) (h : NumbersPasses isExternal ds number)
    (hplaced : ∀ name, name ∈ placed ↔ name ∈ keys ds ∧ number name ≤ i) :
    pass isExternal placed (ds.filter fun d => i < number d.key) =
      (ds.filter fun d => number d.key = i + 1, ds.filter fun d => i + 1 < number d.key) := by
  refine pass_eq_filter isExternal [] hd hr h fun name => ?_
  rw [hplaced]
  exact and_congr_right fun _ => by simp [Named.names]

/-- The passes place one number after the other. -/
theorem rounds_eq_filter (i : Nat) {placed left : List Definition} (hd : (keys ds).Nodup)
    (hr : Resolved isExternal ds) (h : NumbersPasses isExternal ds number)
    (hplaced : ∀ name, name ∈ keys placed ↔ name ∈ keys ds ∧ number name ≤ i)
    (hleft : left = ds.filter fun d => i < number d.key) :
    (rounds isExternal placed left).1 =
      (List.range' (i + 1) (rounds isExternal placed left).1.length).map fun n =>
        ds.filter fun d => number d.key = n := by
  induction placed, left using rounds.induct isExternal generalizing i with
  | case1 placed left later hp =>
    rw [rounds_of_pass_nil isExternal hp]
    rfl
  | case2 placed left d now later hp ih =>
    have hpass := pass_eq_filter_of_placed isExternal i hd hr h hplaced
    rw [← hleft, hp, Prod.mk.injEq] at hpass
    obtain ⟨hnow, hlater⟩ := hpass
    have hplaced' : ∀ name, name ∈ keys (placed ++ d :: now) ↔
        name ∈ keys ds ∧ number name ≤ i + 1 := by
      intro name
      rw [keys_append, List.mem_append, hplaced, hnow]
      constructor
      · rintro (⟨hname, hle⟩ | hname)
        · exact ⟨hname, by omega⟩
        · obtain ⟨c, hc, rfl⟩ := List.mem_map.1 hname
          obtain ⟨hc, hn⟩ := List.mem_filter.1 hc
          exact ⟨List.mem_map_of_mem hc, (of_decide_eq_true hn).le⟩
      · rintro ⟨hname, hle⟩
        rcases Nat.lt_or_eq_of_le hle with hlt | heq
        · exact .inl ⟨hname, Nat.le_of_lt_succ hlt⟩
        · obtain ⟨c, hc, rfl⟩ := List.mem_map.1 hname
          exact .inr (List.mem_map_of_mem (List.mem_filter.2 ⟨hc, decide_eq_true heq⟩))
    rw [rounds_of_pass_cons isExternal hp, List.length_cons, List.range'_succ, List.map_cons,
      ← hnow, ← ih (i + 1) hplaced' hlater]

/-! ## The stable order -/

/-- One definition goes ahead of another by its number, and among those of one number by where it is
given. -/
def GoesAhead (ds : List Definition) (number : String → Nat) (a b : Definition) : Prop :=
  number a.key < number b.key ∨
    number a.key = number b.key ∧ (keys ds).idxOf a.key < (keys ds).idxOf b.key

theorem pairwise_idxOf (hd : (keys ds).Nodup) :
    ds.Pairwise fun a b => (keys ds).idxOf a.key < (keys ds).idxOf b.key := by
  rw [List.pairwise_iff_getElem]
  intro i j hi hj hij
  have hplace : ∀ k (hk : k < ds.length), (keys ds).idxOf ds[k].key = k := by
    intro k hk
    have hkey : (keys ds)[k]? = some ds[k].key := by simp [Named.names, Named.nameOf, hk]
    obtain ⟨hk', hget⟩ := List.getElem?_eq_some_iff.1 hkey
    rw [← hget]
    exact hd.idxOf_getElem k hk'
  rwa [hplace i hi, hplace j hj]

/-- Groups of ascending numbers, each in the order that is given, go ahead of each other. -/
theorem pairwise_goesAhead (hd : (keys ds).Nodup) (number : String → Nat) (first count : Nat) :
    (((List.range' first count).map fun n =>
      ds.filter fun d => number d.key = n).flatten).Pairwise (GoesAhead ds number) := by
  rw [List.pairwise_flatten]
  constructor
  · intro group hgroup
    obtain ⟨n, -, rfl⟩ := List.mem_map.1 hgroup
    refine ((pairwise_idxOf hd).filter _).imp_of_mem fun {a b} ha hb hlt => ?_
    have hna : number a.key = n := of_decide_eq_true (List.mem_filter.1 ha).2
    have hnb : number b.key = n := of_decide_eq_true (List.mem_filter.1 hb).2
    exact .inr ⟨hna.trans hnb.symm, hlt⟩
  · rw [List.pairwise_map]
    refine (List.pairwise_lt_range' 1).imp fun {n m} hnm a ha b hb => ?_
    have hna : number a.key = n := of_decide_eq_true (List.mem_filter.1 ha).2
    have hnb : number b.key = m := of_decide_eq_true (List.mem_filter.1 hb).2
    exact .inl (by omega)

/-- Definitions that stand behind their targets are all placed by the first pass. -/
theorem order_of_targetsFirst (hd : (keys ds).Nodup) (hf : TargetsFirst isExternal ds) :
    order isExternal ds = .ok ds := by
  have hbefore : ∀ d ∈ ds, ∀ target, d.LinksTo target → isExternal target = false →
      target ∈ keys ds ∧ (keys ds).idxOf target < (keys ds).idxOf d.key := by
    intro d hm target hl he
    obtain ⟨before, after, rfl⟩ := List.append_of_mem hm
    have ht := hf before d after rfl target hl he
    exact ⟨by simp [keys_append, ht], (idxOf_lt_iff hd).2 ht⟩
  have hr : Resolved isExternal ds := by
    intro d hm target hl
    cases he : isExternal target with
    | true => exact .inl rfl
    | false => exact .inr (hbefore d hm target hl he).1
  have hnumber : NumbersPasses isExternal ds fun _ => 1 := by
    intro d hm
    refine ⟨.inl rfl, ?_⟩
    rintro n (rfl | ⟨target, hl, he, rfl⟩)
    · exact Nat.le_refl 1
    · rw [if_pos (hbefore d hm target hl he).2]
  have hpass : pass isExternal (keys ([] : List Definition)) ds = (ds, []) := by
    show pass isExternal [] ds = (ds, [])
    have hnone : ∀ name, name ∈ ([] : List String) ↔ name ∈ keys ds ∧ 1 ≤ 0 := by simp
    have hfilter := pass_eq_filter_of_placed isExternal 0 hd hr hnumber hnone
    simpa using hfilter
  rw [order, orderBy, (orphans_eq_nil_iff isExternal).2 hr]
  cases ds with
  | nil => rw [passes, if_pos rfl]
  | cons d now =>
    rw [passes_of_pass_cons isExternal _ (List.cons_ne_nil d now) hpass, passes, if_pos rfl]
    rfl

end Numbered

/-- **The order is the stable order by passes.** Definitions that can be ordered can be numbered by
what their links ask for. By whatever such numbers, pass `n` places the definitions of number `n` in
the order they are given in, and the order is the given one sorted by number, ties by place. There
are no more passes than definitions. An order is its own order, and what stands behind its targets
stays as it is. -/
theorem order_stable {ds : List Definition} (hd : (keys ds).Nodup) :
    (∀ out, order isExternal ds = .ok out →
      (∃ number, NumbersPasses isExternal ds number) ∧
      (∀ number, NumbersPasses isExternal ds number →
        (rounds isExternal [] ds).1 =
          ((List.range' 1 (rounds isExternal [] ds).1.length).map fun n =>
            ds.filter fun d => number d.key = n) ∧
        out.Perm ds ∧ out.Pairwise (GoesAhead ds number)) ∧
      out = (rounds isExternal [] ds).1.flatten ∧
      (rounds isExternal [] ds).1.length ≤ ds.length ∧
      order isExternal out = .ok out) ∧
    (TargetsFirst isExternal ds → order isExternal ds = .ok ds) := by
  refine ⟨fun out ho => ?_, order_of_targetsFirst isExternal hd⟩
  obtain ⟨hperm, hf⟩ := perm_and_targetsFirst_of_order isExternal ho
  obtain ⟨hr, -, hout⟩ := rounds_of_order isExternal ho
  have hd' : (keys out).Nodup := (hperm.map key).nodup_iff.2 hd
  refine ⟨?_, fun number hnumber => ?_, hout, length_rounds_le isExternal [] ds,
    order_of_targetsFirst isExternal hd' hf⟩
  · obtain ⟨number, hnumber⟩ := exists_numbers isExternal ds hd' hf
    exact ⟨number, fun d hm => hnumber d (hperm.mem_iff.2 hm)⟩
  · have hpositive : ∀ d ∈ ds, 0 < number d.key := fun d hm => (hnumber d hm).2 (.inl rfl)
    have hnone : ∀ name, name ∈ keys ([] : List Definition) ↔ name ∈ keys ds ∧ number name ≤ 0 := by
      refine fun name => iff_of_false List.not_mem_nil fun ⟨hname, hle⟩ => ?_
      obtain ⟨d, hm, rfl⟩ := List.mem_map.1 hname
      exact absurd (hpositive d hm) (Nat.not_lt.2 hle)
    have hall : ds = ds.filter fun d => 0 < number d.key :=
      (List.filter_eq_self.2 fun d hm => decide_eq_true (hpositive d hm)).symm
    have hgroups := rounds_eq_filter isExternal 0 hd hr hnumber hnone hall
    refine ⟨hgroups, hperm, ?_⟩
    rw [hout, hgroups]
    exact pairwise_goesAhead hd number 1 _

/-- A roof that stands on a wall, a wall with a window that looks over the ground, and a path from
the street, which is outside. They are given from the top down, so the roof waits for a third
pass. -/
def house : List Definition :=
  let part : Entity := ⟨"Part", [], false⟩
  let window := (empty part "window" none).addLinks "in" ["ground", "street"]
  [(empty part "roof" none).addLinks "on" ["wall"],
    (empty part "wall" none).addChild "holes" window, (empty part "ground" none),
    (empty part "path" none).addLinks "from" ["street", "ground"]]

theorem order_stable_house :
    (keys house).Nodup ∧ ∃ out, order (· == "street") house = .ok out ∧
      (rounds (· == "street") [] house).1.map keys = [["ground", "path"], ["wall"], ["roof"]] ∧
      keys out = ["ground", "path", "wall", "roof"] ∧
      (∃ number, NumbersPasses (· == "street") house number ∧
        out.Pairwise (GoesAhead house number)) ∧
      order (· == "street") out = .ok out := by
  have hd : (keys house).Nodup := by decide
  have horder : keys <$> order (· == "street") house = .ok ["ground", "path", "wall", "roof"] := by
    decide +kernel
  have hrounds : (rounds (· == "street") [] house).1.map keys =
      [["ground", "path"], ["wall"], ["roof"]] := by
    decide +kernel
  obtain ⟨out, ho, hkeys⟩ := functorMap_eq_ok.1 horder
  obtain ⟨⟨number, hnumber⟩, hsorted, -, -, hagain⟩ := (order_stable (· == "street") hd).1 out ho
  exact ⟨hd, out, ho, hrounds, hkeys, ⟨number, hnumber, (hsorted number hnumber).2.2⟩, hagain⟩

end Definition

end Metamodel
