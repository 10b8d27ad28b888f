import Mathlib.Data.List.Induction
import Metamodel.Proofs.Growth

set_option autoImplicit false

/-! # Which drafts can be built

A draft is what a sequence of changes has made of an empty one. This module says from the changes
alone whether the draft can be built (`DraftChange.Admissible`) and what it is then
(`DraftChange.definitionOf`), and `build_exact` compares this with `EntityDraft.build`.

What the changes give is of two kinds: of what is set the last value counts, and what is added is kept
in order. Each field of a draft follows one of the two, so two laws of runs (`get_foldl_set`,
`get_foldl_add`) and one step for each field are all that is needed (`records_foldl`). -/

namespace Metamodel

/-! ## Data spaces -/

/-- A small letter and then 3 to 60 letters or digits, all of them ASCII. -/
def IsDataSpaceName (s : String) : Prop :=
  ∃ c cs, s.toList = c :: cs ∧ ('a' ≤ c ∧ c ≤ 'z') ∧ 3 ≤ cs.length ∧ cs.length ≤ 60 ∧
    ∀ x ∈ cs, ('a' ≤ x ∧ x ≤ 'z') ∨ ('A' ≤ x ∧ x ≤ 'Z') ∨ ('0' ≤ x ∧ x ≤ '9')

theorem EntityDraft.isDataSpace_iff (s : String) :
    isDataSpace s = true ↔ IsDataSpaceName s := by
  have hbetween : ∀ a b c : Char,
      (decide (c.val ≥ a.val) && decide (c.val ≤ b.val)) = true ↔ a ≤ c ∧ c ≤ b := by
    intro a b c
    rw [Bool.and_eq_true, decide_eq_true_eq, decide_eq_true_eq]
    rfl
  have hlower : ∀ c : Char, c.isLower = true ↔ 'a' ≤ c ∧ c ≤ 'z' := hbetween 'a' 'z'
  have hupper : ∀ c : Char, c.isUpper = true ↔ 'A' ≤ c ∧ c ≤ 'Z' := fun _ => decide_eq_true_iff
  have hdigit : ∀ c : Char, c.isDigit = true ↔ '0' ≤ c ∧ c ≤ '9' := hbetween '0' '9'
  have hletter : ∀ c : Char, c.isAlphanum = true ↔
      ('a' ≤ c ∧ c ≤ 'z') ∨ ('A' ≤ c ∧ c ≤ 'Z') ∨ ('0' ≤ c ∧ c ≤ '9') := by
    intro c
    show ((c.isUpper || c.isLower) || c.isDigit) = true ↔ _
    rw [Bool.or_eq_true, Bool.or_eq_true, hlower, hupper, hdigit,
      or_comm (a := 'A' ≤ c ∧ c ≤ 'Z'), or_assoc]
  unfold isDataSpace IsDataSpaceName
  cases s.toList with
  | nil => simp
  | cons c cs =>
    simp only [Bool.and_eq_true, hlower, List.all_eq_true, hletter, decide_eq_true_eq,
      List.cons.injEq]
    constructor
    · rintro ⟨⟨⟨hc, hcs⟩, hmin⟩, hmax⟩
      exact ⟨c, cs, ⟨rfl, rfl⟩, hc, hmin, hmax, hcs⟩
    · rintro ⟨c, cs, ⟨rfl, rfl⟩, hc, hmin, hmax, hcs⟩
      exact ⟨⟨⟨hc, hcs⟩, hmin⟩, hmax⟩

namespace DraftChange

/-! ## What a change gives -/

/-- The identifier that is added. It is persistent. -/
def identifier? : DraftChange → Option Attribute
  | .addId ⟨name, label, domain⟩ => some ⟨name, label, .id, .one, true, domain⟩
  | _ => none

/-- The data attribute or foreign key that is added. Whether objects of the definition are stored
decides where nothing is said of a data attribute, and always for a foreign key. -/
def data? (stored : Bool) : DraftChange → Option Attribute
  | .addData ⟨name, label, domain, cardinality, .own persistent⟩ =>
    some ⟨name, label, .data, cardinality, persistent.getD stored, domain⟩
  | .addData ⟨name, label, domain, cardinality, .foreignKey target⟩ =>
    some ⟨name, label, .foreignKey target, cardinality, stored, domain⟩
  | _ => none

/-- The computed attribute that is added. It is not persistent. -/
def computed? : DraftChange → Option Attribute
  | .addComputed ⟨name, label, domain, cardinality, expression⟩ =>
    some ⟨name, label, .computed expression, cardinality, false, domain⟩
  | _ => none

/-- The package that is set, which may be none. -/
def package? : DraftChange → Option (Option String)
  | .package p => some p
  | _ => none

/-- The stereotype that is set. -/
def stereotype? : DraftChange → Option Stereotype
  | .stereotype s => some s
  | _ => none

/-- The data space that is set. -/
def dataSpace? : DraftChange → Option String
  | .dataSpace s => some s
  | _ => none

/-- The attribute that is selected to order objects. -/
def sort? : DraftChange → Option String
  | .sort a => some a
  | _ => none

/-- The attribute that is selected to show objects. -/
def display? : DraftChange → Option String
  | .display a => some a
  | _ => none

/-- The attribute that is selected as a handle. -/
def handle? : DraftChange → Option String
  | .handle a => some a
  | _ => none

/-- The origin that is set. -/
def origin? : DraftChange → Option String
  | .origin o => some o
  | _ => none

/-! ## What the changes amount to -/

/-- The last value that some changes give. -/
def last {α : Type} (pick : DraftChange → Option α) (changes : List DraftChange) : Option α :=
  (changes.filterMap pick).getLast?

/-- The stereotype: the one that is set, else that of a fragment if there is an origin, else that of
a value object if there is no identifier, else that of an entity. -/
def stereotypeOf (changes : List DraftChange) : Stereotype :=
  match last stereotype? changes with
  | some s => s
  | none =>
    if (last origin? changes).isSome then .fragment
    else if changes.filterMap identifier? = [] then .valueObject
    else .entity

/-- The attributes: identifiers, then data attributes and foreign keys, then computed attributes, each
in the order in which they are added. -/
def attributesOf (changes : List DraftChange) : List Attribute :=
  changes.filterMap identifier? ++
    changes.filterMap (data? (stereotypeOf changes).isPersistent) ++
    changes.filterMap computed?

/-- The data space. -/
def dataSpaceOf (changes : List DraftChange) : String := (last dataSpace? changes).getD "main"

/-- The entity definition. -/
def definitionOf (name : String) (changes : List DraftChange) : EntityDefinition where
  name := name
  package := (last package? changes).getD none
  stereotype := stereotypeOf changes
  dataSpace := dataSpaceOf changes
  attributes := attributesOf changes
  sort := last sort? changes
  display := last display? changes
  handle := last handle? changes
  origin := last origin? changes

/-- What is asked of an entity definition. -/
structure Admissible (changes : List DraftChange) : Prop where
  /-- One identifier if objects are stored, none otherwise. -/
  identifiers : (changes.filterMap identifier?).length =
    if (stereotypeOf changes).isPersistent then 1 else 0
  /-- Just fragments have an origin. -/
  fragment : stereotypeOf changes = .fragment ↔ ∃ o, last origin? changes = some o
  dataSpace : IsDataSpaceName (dataSpaceOf changes)
  /-- No two attributes have one name. -/
  distinct : ((attributesOf changes).map Attribute.name).Nodup
  /-- What is selected is the name of an attribute. -/
  selected : ∀ pick ∈ [sort?, display?, handle?], ∀ n, last pick changes = some n →
    ∃ a ∈ attributesOf changes, a.name = n

/-! ## Runs of changes -/

section Runs

variable {α β : Type}

theorem last_concat (pick : DraftChange → Option α) (changes : List DraftChange)
    (c : DraftChange) : last pick (changes ++ [c]) = (pick c).or (last pick changes) := by
  unfold last
  cases h : pick c with
  | none => simp [h]
  | some a => simp [h]

/-- Of what is set, the last value counts. -/
theorem get_foldl_set (get : EntityDraft → β) {pick : DraftChange → Option α} {of : α → β}
    (step : ∀ x c, get (x.apply c) = (pick c).elim (get x) of) (x : EntityDraft)
    (changes : List DraftChange) :
    get (changes.foldl EntityDraft.apply x) = (last pick changes).elim (get x) of := by
  induction changes using List.reverseRecOn with
  | nil => rfl
  | append_singleton changes c ih =>
    rw [List.foldl_append, List.foldl_cons, List.foldl_nil, step, ih, last_concat]
    cases pick c <;> rfl

/-- What is added is kept in order. -/
theorem get_foldl_add (get : EntityDraft → List β) {pick : DraftChange → Option β}
    (step : ∀ x c, get (x.apply c) = get x ++ (pick c).toList) (x : EntityDraft)
    (changes : List DraftChange) :
    get (changes.foldl EntityDraft.apply x) = get x ++ changes.filterMap pick := by
  induction changes using List.reverseRecOn with
  | nil => simp
  | append_singleton changes c ih =>
    rw [List.foldl_append, List.foldl_cons, List.foldl_nil, step, ih, List.filterMap_append,
      List.append_assoc]
    cases h : pick c <;> simp [h]

end Runs

theorem name_foldl (x : EntityDraft) (changes : List DraftChange) :
    (changes.foldl EntityDraft.apply x).name = x.name := by
  induction changes generalizing x with
  | nil => rfl
  | cons c changes ih => rw [List.foldl_cons, ih, EntityDraft.name_apply]

/-- A draft says what some changes give. -/
structure Records (name : String) (changes : List DraftChange) (x : EntityDraft) : Prop where
  name : x.name = name
  package : x.package = (last package? changes).getD none
  stereotype : x.stereotype = last stereotype? changes
  dataSpace : x.dataSpace = last dataSpace? changes
  ids : x.ids.map IdDraft.attribute = changes.filterMap identifier?
  data : ∀ stored, x.data.map (DataDraft.attribute stored) = changes.filterMap (data? stored)
  computed : x.computed.map ComputedDraft.attribute = changes.filterMap computed?
  sort : x.sort = last sort? changes
  display : x.display = last display? changes
  handle : x.handle = last handle? changes
  origin : x.origin = last origin? changes

theorem records_foldl (name : String) (changes : List DraftChange) :
    Records name changes (changes.foldl EntityDraft.apply (.empty name)) := by
  have hset : ∀ {α : Type} (get : EntityDraft → Option α) {pick : DraftChange → Option α},
      get (.empty name) = none → (∀ x c, get (x.apply c) = (pick c).elim (get x) some) →
      get (changes.foldl EntityDraft.apply (.empty name)) = last pick changes := by
    intro α get pick hempty step
    rw [get_foldl_set get step, hempty]
    cases last pick changes <;> rfl
  have hadd : ∀ (get : EntityDraft → List Attribute) {pick : DraftChange → Option Attribute},
      get (.empty name) = [] → (∀ x c, get (x.apply c) = get x ++ (pick c).toList) →
      get (changes.foldl EntityDraft.apply (.empty name)) = changes.filterMap pick := by
    intro get pick hempty step
    rw [get_foldl_add get step, hempty, List.nil_append]
  constructor
  case name => exact name_foldl (.empty name) changes
  case package =>
    have hstep : ∀ (x : EntityDraft) (c : DraftChange),
        (x.apply c).package = (package? c).elim x.package id := by
      intro x c
      cases c <;> rfl
    rw [get_foldl_set EntityDraft.package hstep]
    cases last package? changes <;> rfl
  case stereotype => exact hset EntityDraft.stereotype rfl fun x c => by cases c <;> rfl
  case dataSpace => exact hset EntityDraft.dataSpace rfl fun x c => by cases c <;> rfl
  case sort => exact hset EntityDraft.sort rfl fun x c => by cases c <;> rfl
  case display => exact hset EntityDraft.display rfl fun x c => by cases c <;> rfl
  case handle => exact hset EntityDraft.handle rfl fun x c => by cases c <;> rfl
  case origin => exact hset EntityDraft.origin rfl fun x c => by cases c <;> rfl
  case ids =>
    refine hadd (fun x => x.ids.map IdDraft.attribute) rfl fun x c => ?_
    cases c <;> simp [EntityDraft.apply, EntityDraft.addData, identifier?, IdDraft.attribute]
  case data =>
    intro stored
    refine hadd (fun x => x.data.map (DataDraft.attribute stored)) rfl fun x c => ?_
    cases c with
    | addData a =>
      rcases a with ⟨_, _, _, _, _ | _⟩ <;>
        simp [EntityDraft.apply, EntityDraft.addData, data?, DataDraft.attribute]
    | _ => simp [EntityDraft.apply, data?]
  case computed =>
    refine hadd (fun x => x.computed.map ComputedDraft.attribute) rfl fun x c => ?_
    cases c <;> simp [EntityDraft.apply, EntityDraft.addData, computed?, ComputedDraft.attribute]

/-! ## Building -/

section Building

variable {name : String} {changes : List DraftChange} {x : EntityDraft}
  (h : Records name changes x)
include h

theorem Records.length_ids : x.ids.length = (changes.filterMap identifier?).length := by
  rw [← h.ids, List.length_map]

theorem Records.effectiveStereotype : x.effectiveStereotype = stereotypeOf changes := by
  have hids : x.ids.isEmpty = decide (changes.filterMap identifier? = []) := by
    rw [← h.ids]
    cases x.ids <;> simp
  rw [EntityDraft.effectiveStereotype, stereotypeOf, h.stereotype, h.origin, hids]
  cases last stereotype? changes with
  | some s => rfl
  | none => simp

theorem Records.attributes : x.attributes = attributesOf changes := by
  rw [EntityDraft.attributes, attributesOf, h.ids, h.computed, h.effectiveStereotype, h.data]

theorem Records.finished : x.finished = definitionOf name changes := by
  simp only [EntityDraft.finished, definitionOf, h.name, h.package, h.effectiveStereotype,
    h.attributes, h.sort, h.display, h.handle, h.origin, EntityDraft.effectiveDataSpace,
    h.dataSpace, dataSpaceOf]

theorem Records.identityViolations_eq_nil_iff :
    x.identityViolations = [] ↔
      (changes.filterMap identifier?).length =
          (if (stereotypeOf changes).isPersistent then 1 else 0) ∧
        (stereotypeOf changes = .fragment ↔ ∃ o, last origin? changes = some o) := by
  rw [← h.length_ids, ← h.effectiveStereotype, ← h.origin, ← Option.isSome_iff_exists]
  have hcount : ¬1 < x.ids.length ∧ ¬(x.effectiveStereotype.isPersistent = true ∧ x.ids = []) ∧
        ¬(x.effectiveStereotype.isPersistent = false ∧ x.ids ≠ []) ↔
      x.ids.length = if x.effectiveStereotype.isPersistent then 1 else 0 := by
    have hempty : x.ids = [] ↔ x.ids.length = 0 := List.length_eq_zero_iff.symm
    rw [hempty, ne_eq, hempty]
    generalize x.ids.length = count
    cases x.effectiveStereotype.isPersistent
    · simp only [Bool.false_eq_true, if_false, false_and, not_false_eq_true, true_and]
      omega
    · simp only [Bool.true_eq_false, if_true, false_and, not_false_eq_true, true_and, and_true]
      omega
  rw [← hcount]
  simp only [EntityDraft.identityViolations, List.append_eq_nil_iff, ite_eq_right_iff,
    ite_eq_left_iff, List.cons_ne_nil, imp_false, not_not, and_assoc]

theorem Records.violations_eq_nil_iff : x.violations = [] ↔ Admissible changes := by
  have hnames : x.attributeNames = (attributesOf changes).map Attribute.name := by
    rw [← h.attributes, ← EntityDraft.names_attributes]
    rfl
  have hspace : EntityDraft.isDataSpace x.effectiveDataSpace = true ↔
      IsDataSpaceName (dataSpaceOf changes) := by
    rw [EntityDraft.effectiveDataSpace, h.dataSpace, EntityDraft.isDataSpace_iff]
    rfl
  have hselects : (∀ n, x.Selects n → n ∈ x.attributeNames) ↔
      ∀ pick ∈ [sort?, display?, handle?], ∀ n, last pick changes = some n →
        ∃ a ∈ attributesOf changes, a.name = n := by
    simp only [EntityDraft.Selects, h.sort, h.display, h.handle, hnames, List.mem_map,
      List.forall_mem_cons, List.not_mem_nil, false_implies, implies_true, and_true, or_imp,
      forall_and]
  rw [EntityDraft.violations_eq_nil_iff, h.identityViolations_eq_nil_iff, hspace, hselects, hnames]
  constructor
  · rintro ⟨⟨hids, hfragment⟩, hs, hd, hsel⟩
    exact ⟨hids, hfragment, hs, hd, hsel⟩
  · rintro ⟨hids, hfragment, hs, hd, hsel⟩
    exact ⟨⟨hids, hfragment⟩, hs, hd, hsel⟩

end Building

/-- **Building is exact.** Whatever changes have made a draft of an empty one, it can be built if the
changes are admissible, and only then; and what is built is what the changes amount to. -/
theorem build_exact (name : String) (changes : List DraftChange) (e : EntityDefinition) :
    (changes.foldl EntityDraft.apply (.empty name)).build = .ok e ↔
      Admissible changes ∧ e = definitionOf name changes := by
  have hrecords := records_foldl name changes
  rw [EntityDraft.build_eq_ok, hrecords.violations_eq_nil_iff, hrecords.finished]

end DraftChange

end Metamodel
