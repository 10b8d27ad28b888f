import Metamodel.Proofs.SolvingPhases

set_option autoImplicit false

/-! # Loaded definitions are well nested

Loading checks that fields exist and where children belong; solving checks it again. A definition is
well nested (`Definition.WellNested`) if every field that it fills is declared on its entity and its
children stand in child fields of their entities, at any depth. Whatever texts are loaded, whether
they fail or not, all that is stored or queued is well nested (`Nested.loadEach`): each entry of a
block keeps it, in whichever way the block is headed, and what a definition implies is well nested
as well. Merging keeps it too, since only definitions of one entity are merged.

So solving never finds a field that is not declared, nor a child in the wrong place
(`wellNested_of_loadEach`). -/

namespace Metamodel

/-! ## What holds of everything in a collection -/

namespace Named

variable {α β : Type}

theorem forall_put [Named α] {p : α → Prop} {x : α} {xs : List α} (h : ∀ y ∈ xs, p y)
    (hx : p x) : ∀ y ∈ put x xs, p y := by
  induction xs with
  | nil => simpa [put] using hx
  | cons y ys ih =>
    rw [List.forall_mem_cons] at h
    rw [put]
    split
    · exact List.forall_mem_cons.2 ⟨hx, h.2⟩
    · exact List.forall_mem_cons.2 ⟨h.1, ih h.2⟩

theorem forall_foldl_put [Named α] {p : α → Prop} {xs ys : List α} (hx : ∀ x ∈ xs, p x)
    (hy : ∀ y ∈ ys, p y) : ∀ y ∈ xs.foldl (fun ys x => put x ys) ys, p y := by
  induction xs generalizing ys with
  | nil => exact hy
  | cons x xs ih =>
    rw [List.forall_mem_cons] at hx
    exact ih hx.2 (forall_put hy hx.1)

/-- What holds of two lists of values under one name has to hold of them joined. -/
theorem forall_extend {p : String × List β → Prop}
    (join : ∀ n us vs, p (n, us) → p (n, vs) → p (n, us ++ vs)) {n : String} {vs : List β}
    {xs : List (String × List β)} (h : ∀ y ∈ xs, p y) (hn : p (n, vs)) :
    ∀ y ∈ extend n vs xs, p y := by
  induction xs with
  | nil => simpa [extend] using hn
  | cons y ys ih =>
    obtain ⟨m, us⟩ := y
    rw [List.forall_mem_cons] at h
    by_cases hm : m = n
    · subst hm
      rw [extend, if_pos rfl]
      exact List.forall_mem_cons.2 ⟨join m us vs h.1 hn, h.2⟩
    · rw [extend, if_neg hm]
      exact List.forall_mem_cons.2 ⟨h.1, ih h.2⟩

theorem forall_foldl_extend {p : String × List β → Prop}
    (join : ∀ n us vs, p (n, us) → p (n, vs) → p (n, us ++ vs)) {xs ys : List (String × List β)}
    (hx : ∀ x ∈ xs, p x) (hy : ∀ y ∈ ys, p y) :
    ∀ y ∈ xs.foldl (fun ys x => extend x.1 x.2 ys) ys, p y := by
  induction xs generalizing ys with
  | nil => exact hy
  | cons x xs ih =>
    rw [List.forall_mem_cons] at hx
    exact ih hx.2 (forall_extend join hy hx.1)

end Named

/-! ## Child fields -/

/-- The entity declares a field of the given name for children of the target entity. -/
def Entity.HoldsChildren (e : Entity) (field target : String) : Prop :=
  ∃ f, e.field? field = some f ∧ f.shape = .child target

theorem Entity.HoldsChildren.unique {e : Entity} {field target target' : String}
    (h : e.HoldsChildren field target) (h' : e.HoldsChildren field target') : target = target' := by
  obtain ⟨f, hf, hshape⟩ := h
  obtain ⟨f', hf', hshape'⟩ := h'
  obtain rfl : f = f' := Option.some.inj (hf.symm.trans hf')
  exact Shape.child.inj (hshape.symm.trans hshape')

/-- A block fills a child field, whether it is headed by the field or by the entity of the
children. -/
theorem Entity.holdsChildren_of_childField? {e : Entity} (hd : (Named.names e.fields).Nodup)
    {head field target : String} (h : e.childField? head = some (field, target)) :
    e.HoldsChildren field target := by
  unfold childField? at h
  split at h
  · next hfield =>
    cases h
    obtain rfl : _ = head := Named.nameOf_get? hfield
    exact ⟨_, hfield, rfl⟩
  · rw [Option.map_eq_some_iff] at h
    obtain ⟨f, hf, heq⟩ := h
    cases heq
    refine ⟨f, (Named.get?_eq_some_iff hd).2 ⟨List.mem_of_find?_eq_some hf, rfl⟩, ?_⟩
    simpa using List.find?_some hf

/-- The children in a field are of the entity that the field is for. -/
def Entity.Holds (entity : Entity) (e : String × List Definition) : Prop :=
  ∃ target, entity.HoldsChildren e.1 target ∧ ∀ c ∈ e.2, c.entity.name = target

theorem Entity.holds_append {entity : Entity} {field : String} {cs cs' : List Definition}
    (h : entity.Holds (field, cs)) (h' : entity.Holds (field, cs')) :
    entity.Holds (field, cs ++ cs') := by
  obtain ⟨target, hfield, hcs⟩ := h
  obtain ⟨target', hfield', hcs'⟩ := h'
  obtain rfl := hfield.unique hfield'
  exact ⟨target, hfield, fun c hc => (List.mem_append.1 hc).elim (hcs c) (hcs' c)⟩

namespace Definition

/-! ## Well-nested definitions -/

/-- The fields that a definition itself fills are declared on its entity, and its children stand in
child fields of their entity. -/
structure FillsDeclared (d : Definition) : Prop where
  property : ∀ p ∈ d.properties, d.entity.hasField p.1 = true
  link : ∀ l ∈ d.links, d.entity.hasField l.1 = true
  child : ∀ e ∈ d.children, d.entity.Holds e

/-- A definition, and each one nested in it, is of an entity of the grammar, fills only fields that
are declared on this entity, and has its children in child fields of their entity. -/
inductive WellNested (grammar : Grammar) : Definition → Prop
  | intro {d : Definition} (entity : grammar.entity? d.entity.name = some d.entity)
    (own : d.FillsDeclared) (nested : ∀ e ∈ d.children, ∀ c ∈ e.2, WellNested grammar c) :
    WellNested grammar d

namespace WellNested

variable {grammar : Grammar} {d : Definition}

theorem entity (h : d.WellNested grammar) : grammar.entity? d.entity.name = some d.entity := by
  cases h with
  | intro entity own nested => exact entity

theorem own (h : d.WellNested grammar) : d.FillsDeclared := by
  cases h with
  | intro entity own nested => exact own

theorem nested (h : d.WellNested grammar) : ∀ e ∈ d.children, ∀ c ∈ e.2, c.WellNested grammar := by
  cases h with
  | intro entity own nested => exact nested

theorem empty {entity : Entity} (h : grammar.entity? entity.name = some entity) (key : String)
    (package : Option String) : (Definition.empty entity key package).WellNested grammar := by
  refine ⟨h, ⟨?_, ?_, ?_⟩, ?_⟩ <;> exact fun _ hm => absurd hm List.not_mem_nil

theorem setProperty (h : d.WellNested grammar) {field : String}
    (hfield : d.entity.hasField field = true) (value : Value) :
    (d.setProperty field value).WellNested grammar := by
  refine ⟨h.entity, ⟨?_, h.own.link, h.own.child⟩, h.nested⟩
  exact Named.forall_put h.own.property hfield

theorem addLinks (h : d.WellNested grammar) {field : String}
    (hfield : d.entity.hasField field = true) (targets : List String) :
    (d.addLinks field targets).WellNested grammar := by
  refine ⟨h.entity, ⟨h.own.property, ?_, h.own.child⟩, h.nested⟩
  exact Named.forall_extend (p := fun l => d.entity.hasField l.1 = true) (fun _ _ _ h _ => h)
    h.own.link hfield

theorem forall_append {cs cs' : List Definition} (h : ∀ c ∈ cs, c.WellNested grammar)
    (h' : ∀ c ∈ cs', c.WellNested grammar) : ∀ c ∈ cs ++ cs', c.WellNested grammar :=
  fun c hc => (List.mem_append.1 hc).elim (h c) (h' c)

theorem addChild (h : d.WellNested grammar) {field : String} {c : Definition}
    (hfield : d.entity.HoldsChildren field c.entity.name) (hc : c.WellNested grammar) :
    (d.addChild field c).WellNested grammar := by
  refine ⟨h.entity, ⟨h.own.property, h.own.link, ?_⟩, ?_⟩
  · exact Named.forall_extend (fun _ _ _ => Entity.holds_append) h.own.child
      ⟨_, hfield, by simp⟩
  · exact Named.forall_extend
      (p := fun e : String × List Definition => ∀ c ∈ e.2, c.WellNested grammar)
      (fun _ _ _ => forall_append) h.nested (by simpa using hc)

/-- Merging an alteration of the same entity. -/
theorem merge {c : Definition} (h : d.WellNested grammar) (hc : c.WellNested grammar)
    (hname : d.entity.name = c.entity.name) : (d.merge c).WellNested grammar := by
  have hentity : c.entity = d.entity := by
    have hfound := hc.entity
    rw [← hname, h.entity] at hfound
    exact (Option.some.inj hfound).symm
  have hown := hc.own
  refine ⟨h.entity, ⟨?_, ?_, ?_⟩, ?_⟩
  · exact Named.forall_foldl_put (hentity ▸ hown.property) h.own.property
  · exact Named.forall_foldl_extend (p := fun l => d.entity.hasField l.1 = true)
      (fun _ _ _ h _ => h) (hentity ▸ hown.link) h.own.link
  · exact Named.forall_foldl_extend (fun _ _ _ => Entity.holds_append) (hentity ▸ hown.child)
      h.own.child
  · exact Named.forall_foldl_extend
      (p := fun e : String × List Definition => ∀ c ∈ e.2, c.WellNested grammar)
      (fun _ _ _ => forall_append) hc.nested h.nested

end WellNested

/-! ## Faults -/

/-- The fault of a field that is not declared, or of a child in the wrong place. -/
inductive Misnested : Fault → Prop
  | unknownField (key entity field : String) : Misnested (.unknownField key entity field)
  | wrongRole (key field : String) (declared : Role) :
    Misnested (.wrongRole key field .child declared)
  | wrongChild (key field expected actual : String) :
    Misnested (.wrongChild key field expected actual)

variable {d : Definition} {f : Fault}

theorem exists_field {field : String} (h : d.entity.hasField field = true) :
    ∃ f, d.entity.field? field = some f := by
  rw [← Option.isSome_iff_exists]
  exact (Named.get?_isSome _ _).trans h

theorem not_misnested_of_mem_propertyFaults {p : String × Value}
    (h : d.entity.hasField p.1 = true) (hf : f ∈ d.propertyFaults p) : ¬Misnested f := by
  obtain ⟨field, hfield⟩ := exists_field h
  simp only [propertyFaults, hfield] at hf
  split at hf
  · split at hf
    · cases hf
    · rw [List.mem_singleton.1 hf]
      rintro ⟨⟩
  · rw [List.mem_singleton.1 hf]
    rintro ⟨⟩

theorem not_misnested_of_mem_linkPlaceFaults {field : String}
    (h : d.entity.hasField field = true) (hf : f ∈ d.linkPlaceFaults field) : ¬Misnested f := by
  obtain ⟨found, hfield⟩ := exists_field h
  simp only [linkPlaceFaults, hfield] at hf
  split at hf
  · cases hf
  · rw [List.mem_singleton.1 hf]
    rintro ⟨⟩

theorem not_misnested_of_mem_countFaults {field : Field} {count : Nat}
    (hf : f ∈ d.countFaults field count) : ¬Misnested f := by
  unfold countFaults at hf
  split at hf
  · rw [List.mem_singleton.1 hf]
    rintro ⟨⟩
  · cases hf

theorem not_misnested_of_mem_linkFaults {l : String × List String}
    (h : d.entity.hasField l.1 = true) (hf : f ∈ d.linkFaults l) : ¬Misnested f := by
  rcases List.mem_append.1 hf with hplace | hcount
  · exact not_misnested_of_mem_linkPlaceFaults h hplace
  · split at hcount
    · exact not_misnested_of_mem_countFaults hcount
    · cases hcount

theorem not_misnested_of_mem_missingFaults (hf : f ∈ d.missingFaults) : ¬Misnested f := by
  unfold missingFaults at hf
  split at hf
  · cases hf
  · rw [List.mem_singleton.1 hf]
    rintro ⟨⟩

namespace WellNested

variable {grammar : Grammar}

theorem not_misnested_of_mem_faults (h : d.WellNested grammar) (hf : f ∈ d.faults) :
    ¬Misnested f := by
  induction h with
  | @intro d entity own nested ih =>
    rw [faults] at hf
    split at hf
    · cases hf
    · simp only [List.mem_append] at hf
      rcases hf with ((hproperty | hlink) | hchild) | hmissing
      · obtain ⟨p, hp, hf⟩ := List.mem_flatMap.1 hproperty
        exact not_misnested_of_mem_propertyFaults (own.property p hp) hf
      · obtain ⟨l, hl, hf⟩ := List.mem_flatMap.1 hlink
        exact not_misnested_of_mem_linkFaults (own.link l hl) hf
      · obtain ⟨e, he, hf⟩ := List.mem_flatMap.1 hchild
        obtain ⟨target, ⟨field, hfield, hshape⟩, hcs⟩ := own.child e he
        simp only [hfield, hshape, List.mem_append] at hf
        rcases hf with hcount | hnested
        · exact not_misnested_of_mem_countFaults hcount
        · obtain ⟨c, hc, hf⟩ := List.mem_flatMap.1 hnested
          rw [if_pos (hcs c hc)] at hf
          exact ih e he c hc hf
      · exact not_misnested_of_mem_missingFaults hmissing

theorem not_misnested_of_mem_misplacedLinks (h : d.WellNested grammar)
    (hf : f ∈ d.misplacedLinks) : ¬Misnested f := by
  induction h with
  | @intro d entity own nested ih =>
    rw [misplacedLinks] at hf
    split at hf
    · cases hf
    · rcases List.mem_append.1 hf with hlink | hnested
      · obtain ⟨l, hl, hf⟩ := List.mem_flatMap.1 hlink
        exact not_misnested_of_mem_linkPlaceFaults (own.link l hl) hf
      · obtain ⟨e, he, hf⟩ := List.mem_flatMap.1 hnested
        obtain ⟨c, hc, hf⟩ := List.mem_flatMap.1 hf
        exact ih e he c hc hf

end WellNested

end Definition

/-! ## Entries -/

/-- No entity declares two fields of one name. -/
def Grammar.DistinctFields (grammar : Grammar) : Prop :=
  ∀ e ∈ grammar.entities, (Named.names e.fields).Nodup

theorem distinctFields_standard : Grammar.standard.DistinctFields := by
  unfold Grammar.DistinctFields
  decide

namespace Repository

section Entries

variable {r : Repository} {source : String}

/-- A definition starts out without fields, of the entity that a word names. -/
theorem wellNested_empty_of_entityAt {name : String} {span : Span} {e : Entity}
    (h : r.entityAt source name span = .ok e) (key : String) (package : Option String) :
    (Definition.empty e key package).WellNested r.dialect.grammar := by
  have hfound := entityAt_eq_ok.1 h
  have hname : e.name = name := Named.nameOf_get? hfound
  exact .empty (hname ▸ hfound) key package

mutual

/-- An entry keeps a definition well nested. -/
theorem wellNested_addEntry (hg : r.dialect.grammar.DistinctFields) {d d' : Definition}
    (hd : d.WellNested r.dialect.grammar) :
    ∀ e : Entry, r.addEntry source d e = .ok d' → d'.WellNested r.dialect.grammar
  | .property field value, h => by
    simp only [addEntry, bind_eq_ok, pure_eq_ok] at h
    obtain ⟨_, hfield, rfl⟩ := h
    exact hd.setProperty (withField_eq_ok.1 hfield) _
  | .links field targets, h => by
    simp only [addEntry, bind_eq_ok, pure_eq_ok] at h
    obtain ⟨_, hfield, rfl⟩ := h
    exact hd.addLinks (withField_eq_ok.1 hfield) _
  | .child head name body, h => by
    rw [addEntry] at h
    split at h
    · next field target hhead =>
      simp only [bind_eq_ok, pure_eq_ok] at h
      obtain ⟨entity, hentity, child, hchild, rfl⟩ := h
      have hholds := Entity.holdsChildren_of_childField? (hg _ (Named.mem_of_get? hd.entity)) hhead
      have htarget : child.entity.name = target := by
        rw [entity_addEntries r source body hchild]
        exact Named.nameOf_get? (entityAt_eq_ok.1 hentity)
      rw [← htarget] at hholds
      exact hd.addChild hholds
        (wellNested_addEntries hg (wellNested_empty_of_entityAt hentity _ _) body hchild)
    · cases h

theorem wellNested_addEntries (hg : r.dialect.grammar.DistinctFields) {d d' : Definition}
    (hd : d.WellNested r.dialect.grammar) :
    ∀ es : List Entry, r.addEntries source d es = .ok d' → d'.WellNested r.dialect.grammar
  | [], h => by
    rw [addEntries, Except.ok.injEq] at h
    exact h ▸ hd
  | e :: es, h => by
    rw [addEntries, bind_eq_ok] at h
    obtain ⟨c, hc, h⟩ := h
    exact wellNested_addEntries hg (wellNested_addEntry hg hd e hc) es h

end

/-- A statement describes a well-nested definition. -/
theorem wellNested_definitionOf (hg : r.dialect.grammar.DistinctFields) {s : Statement}
    {d : Definition} (h : r.definitionOf source s = .ok d) :
    d.WellNested r.dialect.grammar := by
  rw [definitionOf, bind_eq_ok] at h
  obtain ⟨e, he, h⟩ := h
  exact wellNested_addEntries hg (wellNested_empty_of_entityAt he _ _) _ h

end Entries

/-! ## Loading -/

/-- All that a repository of the standard dialect stores or has queued is well nested. -/
structure Nested (r : Repository) : Prop where
  dialect : r.dialect = .standard
  stored : ∀ d ∈ r.definitions, d.WellNested .standard
  queued : ∀ d ∈ r.alterations, d.WellNested .standard

theorem nested_start : (start .standard).Nested := by
  have hroots : ∀ d ∈ Grammar.standard.roots, d.WellNested .standard := by
    intro d hd
    obtain ⟨key, -, rfl⟩ := List.mem_map.1 hd
    exact .empty (by decide) key none
  exact ⟨rfl, Named.forall_foldl_put hroots (fun d hd => absurd hd List.not_mem_nil),
    fun d hd => absurd hd List.not_mem_nil⟩

theorem wellNested_implicitDomain (d : Definition) :
    (Dialect.implicitDomain d).WellNested .standard := by
  have hfields : ∀ field ∈ [FieldName.dataType, FieldName.type],
      EntityKind.domain.entity.hasField field = true := by
    decide
  have hempty : (Definition.empty EntityKind.domain.entity (Domain.implicitName d.key)
      d.package).WellNested .standard := .empty (by decide) _ _
  exact (hempty.addLinks (hfields _ (by simp)) _).setProperty (hfields _ (by simp)) _

namespace Nested

variable {r r' : Repository} {source : String}

theorem add (h : r.Nested) {d : Definition} (hd : d.WellNested .standard)
    (hadd : r.add d = .ok r') : r'.Nested := by
  have hextends := extends_of_add hadd
  rw [h.dialect] at hextends
  refine ⟨hextends.dialect.trans h.dialect, ?_, ?_⟩
  · intro c hc
    rw [hextends.definitions, List.mem_append] at hc
    rcases hc with hstored | hadded
    · exact h.stored c hstored
    · rcases Dialect.mem_closure_standard.1 hadded with rfl | himplied
      · exact hd
      · obtain ⟨-, rfl⟩ := Dialect.mem_impliedDomains.1 himplied
        exact wellNested_implicitDomain d
  · rw [hextends.alterations, List.append_nil]
    exact h.queued

theorem applyStatement (h : r.Nested) {s : Statement}
    (hs : r.applyStatement source s = .ok r') : r'.Nested := by
  simp only [Repository.applyStatement, bind_eq_ok, mapError_eq_ok] at hs
  obtain ⟨d, hd, hs⟩ := hs
  have hnested : d.WellNested .standard := by
    have hg : r.dialect.grammar = .standard := by rw [h.dialect]; rfl
    rw [← hg]
    exact wellNested_definitionOf (hg ▸ distinctFields_standard) hd
  cases hv : s.verb with
  | create =>
    simp only [hv, mapError_eq_ok] at hs
    exact h.add hnested hs
  | alter =>
    simp only [hv, pure_eq_ok] at hs
    subst hs
    refine ⟨h.dialect, h.stored, fun c hc => ?_⟩
    rcases List.mem_append.1 hc with hqueued | hc
    · exact h.queued c hqueued
    · exact List.mem_singleton.1 hc ▸ hnested
  | declare =>
    simp only [hv, pure_eq_ok] at hs
    subst hs
    exact ⟨h.dialect, h.stored, h.queued⟩

theorem applyAll (h : r.Nested) (ss : List Statement) :
    (Repository.applyAll source r ss).1.Nested := by
  induction ss generalizing r with
  | nil => exact h
  | cons s ss ih =>
    rw [Repository.applyAll]
    split
    · next hs => exact ih (h.applyStatement hs)
    · exact h

theorem load (h : r.Nested) (text : String) : (r.load source text).1.Nested := by
  unfold Repository.load
  split
  · exact h.applyAll _
  · exact h

end Nested

theorem Nested.loadEach {r : Repository} (h : r.Nested) (texts : List (String × String)) :
    (r.loadEach texts).Nested := by
  induction texts generalizing r with
  | nil => exact h
  | cons t texts ih =>
    rw [loadEach_cons]
    exact ih (h.load t.2)

/-! ## Solving -/

/-- The fault that solving reports is one of a definition with its alterations. -/
theorem exists_fault_of_solve {r : Repository} {prior : Notebook} {fault : Fault}
    (h : r.solve prior = .error (.conformance fault)) :
    ∃ ds, r.merged = .ok ds ∧ ∃ d ∈ ds, fault ∈ d.faults ∨ fault ∈ d.misplacedLinks := by
  simp only [solve, bind_eq_error, mapError_eq_error, mapError_eq_ok] at h
  rcases h with ⟨_, -, he⟩ | ⟨ds, hmerged, h⟩
  · cases he
  · refine ⟨ds, hmerged, ?_⟩
    rcases h with hplaces | ⟨_, -, ⟨_, -, he⟩ | ⟨ordered, hordered, hchecks | ⟨_, -, he⟩⟩⟩
    · obtain ⟨d, hd, hfail⟩ := exists_of_forM_eq_error hplaces
      obtain ⟨_, hfault, he⟩ := mapError_eq_error.1 hfail
      cases he
      exact ⟨d, hd, .inr (Definition.mem_of_reportFirst_eq_error hfault)⟩
    · cases he
    · obtain ⟨d, hd, hfail⟩ := exists_of_forM_eq_error hchecks
      obtain ⟨_, hfault, he⟩ := mapError_eq_error.1 hfail
      cases he
      have hperm := (Definition.perm_and_targetsFirst_of_order _ hordered).1
      exact ⟨d, hperm.mem_iff.1 hd, .inl (Definition.mem_of_reportFirst_eq_error hfault)⟩
    · cases he

/-- Alterations of one entity keep a definition well nested. -/
theorem wellNested_amended {grammar : Grammar} {changes : List Definition} {d : Definition}
    (hd : d.WellNested grammar) (hchanges : ∀ c ∈ changes, c.WellNested grammar)
    (hentity : ∀ c ∈ changes, c.key = d.key → d.entity.name = c.entity.name) :
    (amended changes d).WellNested grammar := by
  induction changes using List.reverseRecOn with
  | nil => exact hd
  | append_singleton changes c ih =>
    rw [List.forall_mem_append] at hchanges hentity
    have hbefore := ih hchanges.1 hentity.1
    rw [amended_append]
    show (if c.key = (amended changes d).key then (amended changes d).merge c
      else amended changes d).WellNested grammar
    split
    · next hkey =>
      rw [key_amended] at hkey
      refine hbefore.merge (hchanges.2 c List.mem_cons_self) ?_
      rw [entity_amended]
      exact hentity.2 c List.mem_cons_self hkey
    · exact hbefore

/-- **Loading and solving agree on fields and nesting.** Whatever texts have been loaded, all that is
stored or queued is well nested, and so are the definitions with the alterations merged. Solving,
on top of whatever notebook, finds no field that is not declared and no child in the wrong place. -/
theorem wellNested_of_loadEach (texts : List (String × String)) :
    (∀ d ∈ ((start .standard).loadEach texts).definitions, d.WellNested .standard) ∧
      (∀ d ∈ ((start .standard).loadEach texts).alterations, d.WellNested .standard) ∧
      (∀ ds, ((start .standard).loadEach texts).merged = .ok ds →
        ∀ d ∈ ds, d.WellNested .standard) ∧
      ∀ prior fault, ((start .standard).loadEach texts).solve prior = .error (.conformance fault) →
        ¬Definition.Misnested fault := by
  have hnested := nested_start.loadEach texts
  have hkeys := (reachable_loadEach .standard texts).nodup_keys
  generalize (start .standard).loadEach texts = r at hnested hkeys ⊢
  have hmerged : ∀ ds, r.merged = .ok ds → ∀ d ∈ ds, d.WellNested .standard := by
    intro ds hds d hd
    obtain ⟨hfits, rfl⟩ := (merged_eq_ok hkeys).1 hds
    obtain ⟨d, hm, rfl⟩ := List.mem_map.1 hd
    refine wellNested_amended (hnested.stored d hm) hnested.queued fun c hc hkey => ?_
    -- The one definition of that key is `d`.
    obtain ⟨d', hm', hkey', hentity⟩ := hfits c hc
    obtain rfl : d' = d := List.inj_on_of_nodup_map hkeys hm' hm (hkey'.trans hkey)
    exact hentity
  refine ⟨hnested.stored, hnested.queued, hmerged, ?_⟩
  intro prior fault h
  obtain ⟨ds, hds, d, hd, hfault | hfault⟩ := exists_fault_of_solve h
  · exact (hmerged ds hds d hd).not_misnested_of_mem_faults hfault
  · exact (hmerged ds hds d hd).not_misnested_of_mem_misplacedLinks hfault

open Source

/-- A cupboard, whose width has no domain. -/
def cupboardText : String :=
  ofPieces [
    domain "DoCode" "Long",
    definition "Cupboard" [
      identifier "code" "Code" "DoCode",
      block "DataField" "width" [text "label" "Width"]]]

/-- A change to the cupboard, and one of a field that cupboards do not have. -/
def colourText : String :=
  ofPieces [
    block "alter DtDefinition" "Cupboard" [
      block "field" "depth" [text "label" "Depth", link "domain" "DoCode"]],
    block "alter DtDefinition" "Cupboard" [text "colour" "red"]]

/-- Of the second text only the first statement counts. What solving finds is the missing domain. -/
theorem wellNested_of_loadEach_cupboard :
    ∃ r ds, r = (start .standard).loadEach [("cupboard", cupboardText), ("colour", colourText)] ∧
      r.merged = .ok ds ∧
      ((Named.get? ds "Cupboard").map fun d =>
        d.children.map fun e => (e.1, e.2.map Definition.key)) =
          some [("id", ["code"]), ("field", ["width", "depth"])] ∧
      (∀ d ∈ ds, d.WellNested .standard) ∧
      r.solve .empty = .error (.conformance (.missing "width" ["domain"])) ∧
      ¬Definition.Misnested (.missing "width" ["domain"]) := by
  have hcupboard : Statement.parse cupboardText = _ := Statement.parse_ofList _
  have hcolour : Statement.parse colourText = _ := Statement.parse_ofList _
  obtain ⟨-, -, hwell, hfaults⟩ :=
    wellNested_of_loadEach [("cupboard", cupboardText), ("colour", colourText)]
  have hshape : (((start .standard).loadEach
      [("cupboard", cupboardText), ("colour", colourText)]).merged.map fun ds =>
        (Named.get? ds "Cupboard").map fun d =>
          d.children.map fun e => (e.1, e.2.map Definition.key)) =
            .ok (some [("id", ["code"]), ("field", ["width", "depth"])]) := by
    rw [loadEach_cons, loadEach_cons, load, load, hcupboard, hcolour]
    decide +kernel
  have hsolve : (((start .standard).loadEach
      [("cupboard", cupboardText), ("colour", colourText)]).solve .empty).map
        (List.map Definition.key) = .error (.conformance (.missing "width" ["domain"])) := by
    rw [loadEach_cons, loadEach_cons, load, load, hcupboard, hcolour]
    decide +kernel
  generalize (start .standard).loadEach _ = r at hwell hfaults hshape hsolve ⊢
  obtain ⟨ds, hds, hchildren⟩ := map_eq_ok.1 hshape
  rw [map_eq_error] at hsolve
  exact ⟨r, ds, rfl, hds, hchildren, hwell ds hds, hsolve, hfaults _ _ hsolve⟩

end Repository

end Metamodel
