import Metamodel.Proofs.SolvingPhases

set_option autoImplicit false

/-! # Conformance without the check

A definition fills its fields as declared (`Definition.FillsAsDeclared`) if each property, link entry
and child entry stands in a field that the entity declares for it, and single-valued fields hold at
most one value. It is complete (`Definition.Complete`) if each field of cardinality one holds a value
in the role it is declared with. `Definition.Conformant` asks both of a definition and of all that is
nested in it, except below definitions of provided entities.

The check looks for values in a required field without regard to their role. Once everything is filled
as declared this makes no difference (`isFilled_iff`), so the faults of such a definition are those of
its children and then its own unfilled fields (`faults_of_fillsAsDeclared`). Both directions of
`check_exact` and the exact report of unfilled fields follow from this one equation. -/

namespace Metamodel

/-- A field takes so many values. -/
def Field.Takes (f : Field) (count : Nat) : Prop := count ≤ 1 ∨ f.cardinality = .many

namespace Definition

/-! ## Conformance -/

/-- What a definition itself fills is declared on its entity: a property of this type, a link field or
a child field of this entity that takes so many values. -/
structure FillsAsDeclared (d : Definition) : Prop where
  property : ∀ p ∈ d.properties, ∃ f, d.entity.field? p.1 = some f ∧ f.shape = .property p.2.type
  link : ∀ l ∈ d.links, ∃ f target, d.entity.field? l.1 = some f ∧ f.shape = .link target ∧
    f.Takes l.2.length
  child : ∀ e ∈ d.children, ∃ f target, d.entity.field? e.1 = some f ∧ f.shape = .child target ∧
    f.Takes e.2.length ∧ ∀ c ∈ e.2, c.entity.name = target

/-- The number of values in a field that are of the role it is declared with. -/
def valueCount (d : Definition) (field : String) : Nat :=
  match (d.entity.field? field).map Field.shape with
  | some (.property _) => (d.property? field).toList.length
  | some (.link _) => (d.targets field).length
  | some (.child _) => (d.childrenOf field).length
  | none => 0

/-- Each field of cardinality one holds a value. -/
def Complete (d : Definition) : Prop :=
  ∀ f ∈ d.entity.fields, f.cardinality = .one → 0 < d.valueCount f.name

/-- The names of the fields of cardinality one that hold no value, in declaration order. -/
def unfilled (d : Definition) : List String :=
  (d.entity.fields.filter fun f => f.cardinality = .one ∧ d.valueCount f.name = 0).map Field.name

/-- A definition conforms if its entity is provided, or if it fills its fields as declared, is
complete, and all its children conform. -/
inductive Conformant : Definition → Prop
  | provided {d : Definition} (h : d.entity.isProvided = true) : Conformant d
  | checked {d : Definition} (own : d.FillsAsDeclared) (complete : d.Complete)
    (nested : ∀ e ∈ d.children, ∀ c ∈ e.2, Conformant c) : Conformant d

/-- A definition lacks values in required fields of `c`, which is the definition itself or nested in
it, and conforms in everything else. -/
inductive LacksOnly (c : Definition) : Definition → Prop
  | own (hp : c.entity.isProvided = false) (own : c.FillsAsDeclared) (lacks : ¬c.Complete)
    (nested : ∀ e ∈ c.children, ∀ c' ∈ e.2, c'.Conformant) : LacksOnly c c
  | nested {d x : Definition} {front back : List (String × List Definition)} {field : String}
    {before after : List Definition} (hp : d.entity.isProvided = false) (own : d.FillsAsDeclared)
    (complete : d.Complete)
    (children : d.children = front ++ (field, before ++ x :: after) :: back)
    (others : ∀ e ∈ front ++ (field, before ++ after) :: back, ∀ c' ∈ e.2, c'.Conformant)
    (h : LacksOnly c x) : LacksOnly c d

/-! ## Faults of single fields -/

section Fields

variable {d : Definition}

theorem countFaults_eq_nil {f : Field} {count : Nat} :
    d.countFaults f count = [] ↔ f.Takes count := by
  unfold countFaults Field.Takes Cardinality.isMultiple
  by_cases hone : count ≤ 1
  · simp [hone]
  · have hmany : 1 < count := by omega
    simp [hmany, hone]

theorem propertyFaults_eq_nil {p : String × Value} :
    d.propertyFaults p = [] ↔
      ∃ f, d.entity.field? p.1 = some f ∧ f.shape = .property p.2.type := by
  unfold propertyFaults
  cases d.entity.field? p.1 with
  | none => simp
  | some f =>
    cases hshape : f.shape with
    | property type => simp [hshape, eq_comm]
    | link target => simp [hshape]
    | child target => simp [hshape]

theorem linkFaults_eq_nil {l : String × List String} :
    d.linkFaults l = [] ↔
      ∃ f target, d.entity.field? l.1 = some f ∧ f.shape = .link target ∧ f.Takes l.2.length := by
  unfold linkFaults linkPlaceFaults
  cases d.entity.field? l.1 with
  | none => simp
  | some f => cases hshape : f.shape <;> simp [hshape, countFaults_eq_nil]

/-- The faults of the children in a field, and of the field. -/
def entryFaults (d : Definition) (e : String × List Definition) : List Fault :=
  match d.entity.field? e.1 with
  | none => [d.unknownField e.1]
  | some f => match f.shape with
    | .child target => d.countFaults f e.2.length ++ e.2.flatMap fun c =>
        if c.entity.name = target then c.faults else [.wrongChild d.key e.1 target c.entity.name]
    | shape => [.wrongRole d.key e.1 .child shape.role]

/-- Where children stand as declared, all faults are theirs. -/
theorem entryFaults_of_fits {e : String × List Definition} {f : Field} {target : String}
    (hf : d.entity.field? e.1 = some f) (hshape : f.shape = .child target)
    (htakes : f.Takes e.2.length) (hentity : ∀ c ∈ e.2, c.entity.name = target) :
    d.entryFaults e = e.2.flatMap faults := by
  simp only [entryFaults, hf, hshape, countFaults_eq_nil.2 htakes, List.nil_append]
  exact List.flatMap_congr fun c hc => if_pos (hentity c hc)

theorem fits_of_entryFaults_eq_nil {e : String × List Definition} (h : d.entryFaults e = []) :
    ∃ f target, d.entity.field? e.1 = some f ∧ f.shape = .child target ∧ f.Takes e.2.length ∧
      ∀ c ∈ e.2, c.entity.name = target := by
  unfold entryFaults at h
  split at h
  · cases h
  · next f hf =>
    split at h
    · next target hshape =>
      obtain ⟨hcount, hchildren⟩ := List.append_eq_nil_iff.1 h
      refine ⟨f, target, hf, hshape, countFaults_eq_nil.1 hcount, ?_⟩
      intro c hc
      by_contra hne
      have hfault := List.flatMap_eq_nil_iff.1 hchildren c hc
      rw [if_neg hne] at hfault
      cases hfault
    · cases h

/-! ## Faults of a definition -/

theorem faults_of_provided (hp : d.entity.isProvided = true) : d.faults = [] := by
  rw [faults, if_pos hp]

theorem faults_of_not_provided (hp : d.entity.isProvided = false) :
    d.faults = d.properties.flatMap d.propertyFaults ++ d.links.flatMap d.linkFaults ++
      d.children.flatMap d.entryFaults ++ d.missingFaults := by
  rw [faults, if_neg (by simp [hp])]
  rfl

theorem FillsAsDeclared.shape_of_property? (h : d.FillsAsDeclared) {field : String} {v : Value}
    (hv : d.property? field = some v) :
    (d.entity.field? field).map Field.shape = some (.property v.type) := by
  obtain ⟨f, hf, hshape⟩ := h.property _ (Named.mem_of_value? hv)
  simp [hf, hshape]

theorem FillsAsDeclared.shape_of_targets (h : d.FillsAsDeclared) {field : String}
    (hne : d.targets field ≠ []) :
    ∃ target, (d.entity.field? field).map Field.shape = some (.link target) := by
  cases hl : Named.value? d.links field with
  | none => simp [targets, hl] at hne
  | some keys =>
    obtain ⟨f, target, hf, hshape, -⟩ := h.link _ (Named.mem_of_value? hl)
    exact ⟨target, by simp [hf, hshape]⟩

theorem FillsAsDeclared.shape_of_childrenOf (h : d.FillsAsDeclared) {field : String}
    (hne : d.childrenOf field ≠ []) :
    ∃ target, (d.entity.field? field).map Field.shape = some (.child target) := by
  cases hc : Named.value? d.children field with
  | none => simp [childrenOf, hc] at hne
  | some cs =>
    obtain ⟨f, target, hf, hshape, -⟩ := h.child _ (Named.mem_of_value? hc)
    exact ⟨target, by simp [hf, hshape]⟩

/-- A field is filled by a property, by links or by children. -/
theorem isFilled_eq_true_iff {field : String} :
    d.isFilled field = true ↔
      (∃ v, d.property? field = some v) ∨ d.targets field ≠ [] ∨ d.childrenOf field ≠ [] := by
  have hhas : Named.has d.properties field = (d.property? field).isSome := by
    rw [property?, Named.value?, Option.isSome_map, Named.get?_isSome]
  simp [isFilled, hhas, Option.isSome_iff_exists, or_assoc]

/-- Where everything is filled as declared, a value in a field is one of the field's role. -/
theorem isFilled_iff (h : d.FillsAsDeclared) (field : String) :
    d.isFilled field = true ↔ 0 < d.valueCount field := by
  rw [isFilled_eq_true_iff]
  constructor
  · rintro (⟨v, hv⟩ | ht | hc)
    · simp [valueCount, h.shape_of_property? hv, hv]
    · obtain ⟨target, hshape⟩ := h.shape_of_targets ht
      simpa [valueCount, hshape, List.length_pos_iff] using ht
    · obtain ⟨target, hshape⟩ := h.shape_of_childrenOf hc
      simpa [valueCount, hshape, List.length_pos_iff] using hc
  · intro hpos
    unfold valueCount at hpos
    split at hpos
    · next type hshape =>
      cases hv : d.property? field with
      | none => simp [hv] at hpos
      | some v => exact .inl ⟨v, rfl⟩
    · exact .inr (.inl (List.length_pos_iff.1 hpos))
    · exact .inr (.inr (List.length_pos_iff.1 hpos))
    · omega

theorem missingFields_eq_unfilled (h : d.FillsAsDeclared) : d.missingFields = d.unfilled := by
  rw [missingFields, Entity.requiredFields, List.filter_map, List.filter_filter, unfilled]
  congr 1
  refine List.filter_congr ?_
  intro f _
  have hiff := isFilled_iff h f.name
  by_cases hcount : 0 < d.valueCount f.name
  · have hne : d.valueCount f.name ≠ 0 := by omega
    simp [hiff.2 hcount, hne]
  · have hzero : d.valueCount f.name = 0 := by omega
    have hnot : d.isFilled f.name = false := by
      rw [← Bool.not_eq_true, hiff]
      exact hcount
    simp [hnot, hzero, Cardinality.isRequired]

theorem unfilled_eq_nil_iff : d.unfilled = [] ↔ d.Complete := by
  simp only [unfilled, List.map_eq_nil_iff, List.filter_eq_nil_iff, decide_eq_true_eq, not_and,
    Complete, Nat.pos_iff_ne_zero, ne_eq]

/-- Where everything is filled as declared, the faults are those of the children and then the fields
that are not filled. -/
theorem faults_of_fillsAsDeclared (hp : d.entity.isProvided = false) (h : d.FillsAsDeclared) :
    d.faults = (d.children.flatMap fun e => e.2.flatMap faults) ++
      if d.unfilled = [] then [] else [.missing d.key d.unfilled] := by
  have hproperties : d.properties.flatMap d.propertyFaults = [] :=
    List.flatMap_eq_nil_iff.2 fun p hm => propertyFaults_eq_nil.2 (h.property p hm)
  have hlinks : d.links.flatMap d.linkFaults = [] :=
    List.flatMap_eq_nil_iff.2 fun l hm => linkFaults_eq_nil.2 (h.link l hm)
  have hchildren : d.children.flatMap d.entryFaults =
      d.children.flatMap fun e => e.2.flatMap faults := by
    refine List.flatMap_congr ?_
    intro e he
    obtain ⟨f, target, hf, hshape, htakes, hentity⟩ := h.child e he
    exact entryFaults_of_fits hf hshape htakes hentity
  rw [faults_of_not_provided hp, hproperties, hlinks, hchildren, missingFaults,
    missingFields_eq_unfilled h]
  rfl

theorem fillsAsDeclared_of_faults_eq_nil (hp : d.entity.isProvided = false) (h : d.faults = []) :
    d.FillsAsDeclared := by
  rw [faults_of_not_provided hp] at h
  simp only [List.append_eq_nil_iff, List.flatMap_eq_nil_iff] at h
  obtain ⟨⟨⟨hproperties, hlinks⟩, hchildren⟩, -⟩ := h
  exact ⟨fun p hm => propertyFaults_eq_nil.1 (hproperties p hm),
    fun l hm => linkFaults_eq_nil.1 (hlinks l hm),
    fun e hm => fits_of_entryFaults_eq_nil (hchildren e hm)⟩

end Fields

/-! ## The check -/

theorem check_eq_ok {d : Definition} : d.check = .ok () ↔ d.faults = [] := reportFirst_eq_ok

/-- A definition has no faults if it conforms, and only then. -/
theorem faults_eq_nil_iff {d : Definition} : d.faults = [] ↔ d.Conformant := by
  constructor
  · -- The recursion into children is that of the search for misplaced links.
    induction d using misplacedLinks.induct with
    | case1 d hp => exact fun _ => .provided hp
    | case2 d hp ih =>
      intro h
      rw [Bool.not_eq_true] at hp
      have hown := fillsAsDeclared_of_faults_eq_nil hp h
      rw [faults_of_fillsAsDeclared hp hown, List.append_eq_nil_iff] at h
      obtain ⟨hchildren, hunfilled⟩ := h
      simp only [List.flatMap_eq_nil_iff] at hchildren
      refine .checked hown (unfilled_eq_nil_iff.1 ?_) fun e he c hc =>
        ih e he c hc (hchildren e he c hc)
      by_contra hne
      rw [if_neg hne] at hunfilled
      cases hunfilled
  · intro h
    induction h with
    | provided hp => exact faults_of_provided hp
    | @checked d own complete nested ih =>
      by_cases hp : d.entity.isProvided = true
      · exact faults_of_provided hp
      · rw [faults_of_fillsAsDeclared (by simpa using hp) own,
          if_pos (unfilled_eq_nil_iff.2 complete), List.append_nil]
        simpa only [List.flatMap_eq_nil_iff] using ih

/-- What only lacks values in one definition has one fault, which names this definition and just the
fields that are not filled. -/
theorem LacksOnly.faults_eq {c d : Definition} (h : LacksOnly c d) :
    d.faults = [.missing c.key c.unfilled] := by
  have hnone : ∀ cs : List Definition, (∀ c' ∈ cs, c'.Conformant) → cs.flatMap faults = [] :=
    fun cs hcs => List.flatMap_eq_nil_iff.2 fun c' hc' => faults_eq_nil_iff.2 (hcs c' hc')
  have hentries : ∀ es : List (String × List Definition), (∀ e ∈ es, ∀ c' ∈ e.2, c'.Conformant) →
      (es.flatMap fun e => e.2.flatMap faults) = [] :=
    fun es hes => List.flatMap_eq_nil_iff.2 fun e he => hnone e.2 (hes e he)
  induction h with
  | own hp own lacks nested =>
    rw [faults_of_fillsAsDeclared hp own, hentries _ nested, List.nil_append,
      if_neg (mt unfilled_eq_nil_iff.1 lacks)]
  | @nested d x front back field before after hp own complete children others _ ih =>
    simp only [List.mem_append, List.mem_cons] at others
    have hfront := hentries front fun e he => others e (.inl he)
    have hback := hentries back fun e he => others e (.inr (.inr he))
    have hbefore := hnone before fun c' hc' =>
      others _ (.inr (.inl rfl)) c' (List.mem_append_left after hc')
    have hafter := hnone after fun c' hc' =>
      others _ (.inr (.inl rfl)) c' (List.mem_append_right before hc')
    rw [faults_of_fillsAsDeclared hp own, if_pos (unfilled_eq_nil_iff.2 complete), children]
    simp only [List.flatMap_append, List.flatMap_cons, hfront, hback, hbefore, hafter, ih,
      List.nil_append, List.append_nil]

/-- Links of what conforms stand in link fields. -/
theorem Conformant.not_hasMisplacedLink {d : Definition} (h : d.Conformant) :
    ¬d.HasMisplacedLink := by
  intro hmisplaced
  induction hmisplaced with
  | own hp hl hf =>
    cases h with
    | provided hprovided => simp [hp] at hprovided
    | checked own complete nested =>
      obtain ⟨f, target, hfield, hshape, -⟩ := own.link _ hl
      exact hf f hfield (by rw [hshape]; rfl)
  | nested hp he hc _ ih =>
    cases h with
    | provided hprovided => simp [hp] at hprovided
    | checked own complete nested => exact ih (nested _ he _ hc)

/-- **The check is exact.** It accepts a definition if this conforms, and only then. If nothing is
wrong but that one definition, at any depth, has required fields without a value, the error names this
definition and just these fields, in declaration order. What is accepted also passes the check of link
fields that runs before links are followed. -/
theorem check_exact (d : Definition) :
    (d.check = .ok () ↔ d.Conformant) ∧
      (∀ c, LacksOnly c d → d.check = .error (.missing c.key c.unfilled)) ∧
      (d.check = .ok () → d.checkLinkFields = .ok ()) := by
  have haccepts : d.check = .ok () ↔ d.Conformant := by
    rw [check_eq_ok, faults_eq_nil_iff]
  refine ⟨haccepts, ?_, ?_⟩
  · intro c hlacks
    rw [check, hlacks.faults_eq]
    rfl
  · intro hcheck
    exact checkLinkFields_eq_ok.2 (haccepts.1 hcheck).not_hasMisplacedLink

/-- An identifier without its label and its domain. -/
def bareIdentifier : Definition := empty EntityKind.idField.entity "isbn" none

/-- An entity definition with that identifier, and with a data attribute that lacks nothing. -/
def unfinishedBook : Definition :=
  let title := ((empty EntityKind.dataField.entity "title" none).setProperty FieldName.label
    (.text "Title")).addLinks FieldName.domain ["DoTitle"]
  ((empty EntityKind.entityDefinition.entity "Book" none).addChild FieldName.fields title).addChild
    FieldName.ids bareIdentifier

theorem check_exact_unfinishedBook :
    LacksOnly bareIdentifier unfinishedBook ∧ bareIdentifier.unfilled = ["label", "domain"] ∧
      unfinishedBook.check = .error (.missing "isbn" ["label", "domain"]) ∧
      ¬unfinishedBook.Conformant ∧
      ∀ title ∈ unfinishedBook.childrenOf FieldName.fields,
        title.check = .ok () ∧ title.Conformant ∧ title.checkLinkFields = .ok () := by
  have htitle : ∀ title ∈ unfinishedBook.childrenOf FieldName.fields, title.check = .ok () := by
    decide +kernel
  have hlacks : LacksOnly bareIdentifier unfinishedBook := by
    have hbare : LacksOnly bareIdentifier bareIdentifier := by
      refine .own (by decide) ⟨?_, ?_, ?_⟩ (unfilled_eq_nil_iff.not.1 (by decide)) ?_ <;>
        exact fun _ hm => absurd hm List.not_mem_nil
    have hchildren : unfinishedBook.children =
        [(FieldName.fields, unfinishedBook.childrenOf FieldName.fields)] ++
          (FieldName.ids, [] ++ bareIdentifier :: []) :: [] :=
      rfl
    refine .nested (by decide) ⟨?_, ?_, ?_⟩ (unfilled_eq_nil_iff.1 (by decide)) hchildren ?_ hbare
    · exact fun _ hm => absurd hm List.not_mem_nil
    · exact fun _ hm => absurd hm List.not_mem_nil
    · intro e he
      rcases List.mem_cons.1 he with rfl | he
      · exact ⟨_, _, rfl, rfl, .inr rfl, by decide⟩
      · obtain rfl := List.mem_singleton.1 he
        exact ⟨_, _, rfl, rfl, .inr rfl, by decide⟩
    · intro e he title hm
      rcases List.mem_cons.1 he with rfl | he
      · exact (check_exact title).1.1 (htitle title hm)
      · obtain rfl := List.mem_singleton.1 he
        cases hm
  have hunfilled : bareIdentifier.unfilled = ["label", "domain"] := by
    decide
  have hcheck := (check_exact unfinishedBook).2.1 _ hlacks
  rw [hunfilled] at hcheck
  refine ⟨hlacks, hunfilled, hcheck, ?_, ?_⟩
  · intro hconforms
    have haccepted := (check_exact unfinishedBook).1.2 hconforms
    rw [hcheck] at haccepted
    cases haccepted
  · intro title hm
    obtain ⟨haccepts, -, hlinks⟩ := check_exact title
    exact ⟨htitle title hm, haccepts.1 (htitle title hm), hlinks (htitle title hm)⟩

end Definition

end Metamodel
