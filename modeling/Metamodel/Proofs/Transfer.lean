import Metamodel.Proofs.LinkOrder
import Metamodel.Proofs.Supply

set_option autoImplicit false

/-! # Constructing elsewhere

A construction reads from the workbench what the definition links to, and nothing else. So a
definition that becomes something on one workbench becomes the same on any other that holds what it
links to in the same way (`Workbench.SeesAlike`, `Becomes.transfer`): nothing, one finished sketch,
or drafts with one identifier. How many foreign keys these drafts have got does not matter, with two
exceptions. A fragment may show such a key, so the law leaves fragments out. And a simple
association adds a key whose name has to be new to the draft, which `toSimple_transfer` asks for. -/

namespace Metamodel

namespace Definition

/-! ## What is read is linked to -/

theorem linksTo_of_mem_targets {d : Definition} {field name : String}
    (h : name ∈ d.targets field) : d.LinksTo name := by
  rw [targets, Named.value?] at h
  cases hl : Named.get? d.links field with
  | none => simp [hl] at h
  | some l =>
    rw [hl] at h
    exact .own (Named.mem_of_get? hl) h

theorem linksTo_of_target? {d : Definition} {field name : String}
    (h : d.target? field = some name) : d.LinksTo name :=
  linksTo_of_mem_targets (List.mem_of_head? h)

theorem linksTo_of_requireTarget {d : Definition} {field name : String}
    (h : d.requireTarget field = .ok name) : d.LinksTo name := by
  unfold requireTarget at h
  split at h
  · next htarget =>
    cases h
    exact linksTo_of_target? htarget
  · cases h

theorem LinksTo.of_mem_childrenOf {d child : Definition} {field name : String}
    (hc : child ∈ d.childrenOf field) (h : child.LinksTo name) : d.LinksTo name := by
  rw [childrenOf, Named.value?] at hc
  cases he : Named.get? d.children field with
  | none => simp [he] at hc
  | some e =>
    rw [he] at hc
    exact .nested (Named.mem_of_get? he) hc h

end Definition

namespace Workbench

/-! ## Workbenches that are alike -/

/-- Under the name both workbenches hold nothing, or the same finished sketch, or drafts with one
identifier. -/
inductive HoldAlike (b c : Workbench) (name : String) : Prop
  | nothing (hb : b.slot? name = none) (hc : c.slot? name = none)
  | finished {s : Sketch} (hb : b.slot? name = some (.finished s))
    (hc : c.slot? name = some (.finished s))
  | draft {x y : EntityDraft} (hb : b.slot? name = some (.draft x))
    (hc : c.slot? name = some (.draft y)) (hid : y.finished.id? = x.finished.id?)

/-- The workbenches stand on one notebook and hold what the definition links to alike; the drafts of
the second one can be built. -/
structure SeesAlike (b c : Workbench) (d : Definition) : Prop where
  prior : c.prior = b.prior
  buildable : c.Buildable
  holds : ∀ name, d.LinksTo name → HoldAlike b c name

namespace SeesAlike

variable {b c : Workbench} {d : Definition}

theorem child (h : b.SeesAlike c d) {child : Definition} {field : String}
    (hc : child ∈ d.childrenOf field) : b.SeesAlike c child where
  prior := h.prior
  buildable := h.buildable
  holds name hl := h.holds name (hl.of_mem_childrenOf hc)

theorem resolve (h : b.SeesAlike c d) {name : String} (hl : d.LinksTo name) {kind : SketchKind}
    {s : Sketch} (hs : b.resolve name kind = .ok s) : c.resolve name kind = .ok s := by
  unfold Workbench.resolve at hs ⊢
  cases h.holds name hl with
  | nothing hb hc => rwa [hc, h.prior, ← hb]
  | finished hb hc =>
    rw [hb] at hs
    rwa [hc]
  | draft hb =>
    rw [hb] at hs
    dsimp only at hs
    split at hs <;> cases hs

theorem resolveAll (h : b.SeesAlike c d) {names : List String} (hl : ∀ name ∈ names, d.LinksTo name)
    {kind : SketchKind} {u : Unit} (hs : b.resolveAll kind names = .ok u) :
    c.resolveAll kind names = .ok u := by
  refine resolveAll_eq_ok.2 fun name hn => ?_
  obtain ⟨s, hfound⟩ := resolveAll_eq_ok.1 hs name hn
  exact ⟨s, h.resolve (hl name hn) hfound⟩

/-- An entity definition that is found on the one is found on the other, with its identifier. -/
theorem entityDefinition (h : b.SeesAlike c d) {name : String} (hl : d.LinksTo name)
    {e : EntityDefinition} (he : b.entityDefinition name = .ok e) :
    ∃ e', c.entityDefinition name = .ok e' ∧ e'.id? = e.id? := by
  unfold Workbench.entityDefinition at he ⊢
  cases h.holds name hl with
  | nothing hb hc =>
    rw [hb] at he
    rw [hc, h.prior]
    exact ⟨e, he, rfl⟩
  | finished hb =>
    rw [hb] at he
    cases he
  | @draft x y hb hc hid =>
    rw [hb] at he
    rw [hc]
    simp only [mapError_eq_ok, EntityDraft.build_eq_ok] at he ⊢
    rw [he.2]
    exact ⟨_, ⟨h.buildable name y hc, rfl⟩, hid⟩

theorem draft (h : b.SeesAlike c d) {name : String} (hl : d.LinksTo name) {x : EntityDraft}
    (hx : b.draft name = .ok x) : ∃ y, c.draft name = .ok y := by
  have hslot := draft_eq_ok.1 hx
  cases h.holds name hl with
  | nothing hb | finished hb =>
    rw [hb] at hslot
    cases hslot
  | @draft _ y _ hc => exact ⟨y, by rw [Workbench.draft, hc]⟩

end SeesAlike

end Workbench

namespace Definition

/-! ## Constructions -/

section Constructions

variable {b c : Workbench} {d : Definition}

theorem attributeDomain_transfer (h : b.SeesAlike c d) {domain : String}
    (hd : d.attributeDomain b = .ok domain) : d.attributeDomain c = .ok domain := by
  simp only [attributeDomain, bind_eq_ok, liftSketch_eq_ok, discard_eq_ok, liftNotebook_eq_ok,
    pure_eq_ok] at hd ⊢
  obtain ⟨domain, htarget, u, ⟨s, hs⟩, rfl⟩ := hd
  exact ⟨domain, htarget, u, ⟨s, h.resolve (linksTo_of_requireTarget htarget) hs⟩, rfl⟩

theorem toIdDraft_transfer (h : b.SeesAlike c d) {k : IdDraft} (hk : d.toIdDraft b = .ok k) :
    d.toIdDraft c = .ok k := by
  rw [toIdDraft, bind_eq_ok] at hk ⊢
  obtain ⟨domain, hd, hk⟩ := hk
  exact ⟨domain, attributeDomain_transfer h hd, hk⟩

theorem toDataDraft_transfer (h : b.SeesAlike c d) {k : DataDraft}
    (hk : d.toDataDraft b = .ok k) : d.toDataDraft c = .ok k := by
  rw [toDataDraft, bind_eq_ok] at hk ⊢
  obtain ⟨domain, hd, hk⟩ := hk
  exact ⟨domain, attributeDomain_transfer h hd, hk⟩

theorem toComputedDraft_transfer (h : b.SeesAlike c d) {parent : Definition} {k : ComputedDraft}
    (hk : parent.toComputedDraft b d = .ok k) : parent.toComputedDraft c d = .ok k := by
  rw [toComputedDraft, guard_eq_ok, bind_eq_ok] at hk ⊢
  obtain ⟨hp, domain, hd, hk⟩ := hk
  exact ⟨hp, domain, attributeDomain_transfer h hd, hk⟩

theorem toEntityDraft_transfer (h : b.SeesAlike c d) {x : EntityDraft}
    (hx : d.toEntityDraft b = .ok x) : d.toEntityDraft c = .ok x := by
  simp only [toEntityDraft, bind_eq_ok] at hx ⊢
  obtain ⟨stereotype, hs, ids, hi, data, hd, computed, hc, hx⟩ := hx
  refine ⟨stereotype, hs, ids, mapM_mono hi ?_, data, mapM_mono hd ?_, computed, mapM_mono hc ?_,
    hx⟩
  · exact fun child hc _ => toIdDraft_transfer (h.child hc)
  · exact fun child hc _ => toDataDraft_transfer (h.child hc)
  · exact fun child hc _ => toComputedDraft_transfer (h.child hc)

theorem primitiveScope_transfer (h : b.SeesAlike c d) {dataType : String} {scope : DomainScope}
    (hs : d.primitiveScope b dataType = .ok scope) : d.primitiveScope c dataType = .ok scope := by
  unfold primitiveScope at hs ⊢
  split at hs
  · simp only [guard_eq_ok, bind_eq_ok, liftNotebook_eq_ok] at hs ⊢
    obtain ⟨htype, u, hf, v, hc, hs⟩ := hs
    refine ⟨htype, u, h.resolveAll ?_ hf, v, h.resolveAll ?_ hc, hs⟩
    · exact fun name hn => linksTo_of_target? (Option.mem_toList.1 hn)
    · exact fun name => linksTo_of_mem_targets
  · cases hs

theorem toDomain_transfer (h : b.SeesAlike c d) {x : Domain} (hx : d.toDomain b = .ok x) :
    d.toDomain c = .ok x := by
  simp only [toDomain, bind_eq_ok] at hx ⊢
  obtain ⟨dataType, hd, scope, hs, hx⟩ := hx
  refine ⟨dataType, hd, scope, ?_, hx⟩
  unfold domainScope at hs ⊢
  split at hs
  · next ho => rwa [if_pos ho]
  · next ho =>
    split at hs
    · next hv => rwa [if_neg ho, if_pos hv]
    · next hv =>
      rw [if_neg ho, if_neg hv]
      exact primitiveScope_transfer h hs

theorem toManyToMany_transfer (h : b.SeesAlike c d) {a : Association}
    (ha : d.toManyToMany b = .ok a) : d.toManyToMany c = .ok a := by
  simp only [toManyToMany, bind_eq_ok, liftSketch_eq_ok, discard_eq_ok] at ha ⊢
  obtain ⟨definitionA, hA, definitionB, hB, u, ⟨e, he⟩, v, ⟨f, hf⟩, ha⟩ := ha
  obtain ⟨e', he', -⟩ := h.entityDefinition (linksTo_of_requireTarget hA) he
  obtain ⟨f', hf', -⟩ := h.entityDefinition (linksTo_of_requireTarget hB) hf
  exact ⟨definitionA, hA, definitionB, hB, u, ⟨e', he'⟩, v, ⟨f', hf'⟩, ha⟩

/-- Both ends of a simple association are linked to. -/
theorem linksTo_of_simpleEnds {endA endB : AssociationEnd} {side : Side}
    (h : d.simpleEnds = .ok (endA, endB, side)) (s : Side) :
    d.LinksTo (s.pick endA endB).definition := by
  simp only [simpleEnds, bind_eq_ok, pure_eq_ok, Prod.exists, Prod.mk.injEq] at h
  obtain ⟨definitionA, hA, definitionB, hB, _, -, _, -, _, _, hends, rfl, rfl, -⟩ := h
  obtain ⟨rfl, rfl, -, -⟩ := ends_eq_ok hends
  cases s with
  | a => exact linksTo_of_requireTarget hA
  | b => exact linksTo_of_requireTarget hB

/-- A simple association is the same elsewhere if its key is new to the draft there. -/
theorem toSimple_transfer (h : b.SeesAlike c d) {a : Association} {foreign : String}
    {key : DataDraft} (ha : d.toSimple b = .ok (a, foreign, key))
    (hfree : ∀ y, c.slot? foreign = some (.draft y) → y.hasAttribute key.name = false) :
    d.toSimple c = .ok (a, foreign, key) := by
  obtain ⟨endA, endB, side, e, id, x, hends, he, hid, hx, -, rfl, rfl, rfl⟩ := toSimple_eq_ok.1 ha
  obtain ⟨e', he', hid'⟩ := h.entityDefinition (linksTo_of_simpleEnds hends side) he
  obtain ⟨y, hy⟩ := h.draft (linksTo_of_simpleEnds hends side.other) hx
  have hnew := hfree y (Workbench.draft_eq_ok.1 hy)
  exact toSimple_eq_ok.2
    ⟨endA, endB, side, e', id, y, hends, he', hid'.trans hid, hy, hnew, rfl, rfl, rfl⟩

end Constructions

/-- What a definition becomes, it becomes on every workbench that is alike, unless it is a
fragment. -/
theorem Becomes.transfer {b c : Workbench} {d : Definition} {s : Slot} (h : d.Becomes b s)
    (hk : d.kind? ≠ some .fragment) (hc : b.SeesAlike c d) : d.Becomes c s := by
  cases h with
  | constraint hk h => exact .constraint hk h
  | formatter hk h => exact .formatter hk h
  | domain hk h => exact .domain hk (toDomain_transfer hc h)
  | entityDefinition hk h => exact .entityDefinition hk (toEntityDraft_transfer hc h)
  | fragment hf => exact absurd hf hk
  | manyToMany hk h => exact .manyToMany hk (toManyToMany_transfer hc h)

end Definition

end Metamodel
