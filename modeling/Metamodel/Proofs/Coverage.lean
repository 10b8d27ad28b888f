import Metamodel.Proofs.ConstructionReads

set_option autoImplicit false

/-! # Checks cover what constructions take for granted

A construction reports that a required field is empty, an error that no other step of it has
(`IsMissing`). Step by step, this error is avoided where the definition serves what is read
(`avoids_construct`), and a definition that has been checked does (`construct_of_check`). -/

namespace Metamodel

/-! ## Required fields are never missed -/

/-- The error that a required field is empty. -/
def SketchError.IsMissing (e : SketchError) : Prop := ∃ key field, e = .broken key (.required field)

/-- The error of a build that a required field is empty. -/
def ModelError.IsMissing (e : ModelError) : Prop := ∃ e', e = .sketch e' ∧ e'.IsMissing

namespace Avoids

variable {α : Type}

/-- Other rules that are broken are no such error. -/
theorem broken {key : String} {rule : Rule} (h : ∀ field, rule ≠ .required field) :
    Avoids SketchError.IsMissing (.error (.broken key rule) : Except SketchError α) := by
  refine error ?_
  rintro ⟨_, field, heq⟩
  cases heq
  exact h field rfl

theorem sketch {x : Except SketchError α} (h : Avoids SketchError.IsMissing x) :
    Avoids ModelError.IsMissing (x.mapError .sketch) := by
  rintro e he ⟨e', rfl, hmissing⟩
  obtain ⟨e'', he'', heq⟩ := mapError_eq_error.1 he
  cases heq
  exact h _ he'' hmissing

theorem modelBroken {key : String} {rule : Rule} (h : ∀ field, rule ≠ .required field) :
    Avoids ModelError.IsMissing (.error (.broken key rule) : Except ModelError α) :=
  (broken h).sketch

theorem notebook {x : Except NotebookError α} :
    Avoids ModelError.IsMissing (x.mapError ModelError.notebook) := by
  rintro e he ⟨e', rfl, -⟩
  obtain ⟨e'', -, heq⟩ := mapError_eq_error.1 he
  cases heq

end Avoids

theorem EntityDraft.required_notMem_brokenRules (x : EntityDraft) (field : String) :
    Rule.required field ∉ x.brokenRules := by
  simp only [brokenRules, identityViolations, List.mem_append, List.mem_map]
  intro h
  split_ifs at h <;> simp at h

theorem EntityDraft.avoids_build (x : EntityDraft) : Avoids SketchError.IsMissing x.build := by
  rintro e he ⟨key, field, rfl⟩
  unfold build at he
  split at he
  · cases he
  · next hviolations =>
    cases he
    have hm : SketchError.broken key (.required field) ∈ x.violations := by
      rw [hviolations]
      exact List.mem_cons_self
    simp [violations, x.required_notMem_brokenRules] at hm

theorem Workbench.avoids_entityDefinition (b : Workbench) (name : String) :
    Avoids ModelError.IsMissing (b.entityDefinition name) := by
  unfold entityDefinition
  split
  · next x _ => exact .sketch x.avoids_build
  · exact .error (by simp [ModelError.IsMissing, notDefinition])
  · exact .notebook

theorem Workbench.avoids_draft (b : Workbench) (name : String) :
    Avoids ModelError.IsMissing (b.draft name) := by
  unfold draft
  split
  · exact .ok _
  · exact .error (by simp [ModelError.IsMissing, notDefinition])
  · split
    · exact .modelBroken (by simp)
    · exact .error (by simp [ModelError.IsMissing])

namespace Definition

section Steps

variable {d : Definition} {field : String}

theorem requireText_of_served (h : (Access.neededText field).Served d) :
    ∃ s, d.requireText field = .ok s := by
  obtain ⟨s, hs⟩ := h
  exact ⟨s, by simp [requireText, text?, hs, Value.text?]⟩

theorem requireTarget_of_served (h : (Access.neededTarget field).Served d) :
    ∃ target, d.requireTarget field = .ok target := by
  obtain ⟨target, ht⟩ := h
  exact ⟨target, by simp [requireTarget, ht]⟩

theorem avoids_requireText (h : (Access.neededText field).Served d) :
    Avoids SketchError.IsMissing (d.requireText field) := by
  obtain ⟨s, hs⟩ := requireText_of_served h
  exact hs ▸ .ok s

theorem avoids_requireTarget (h : (Access.neededTarget field).Served d) :
    Avoids SketchError.IsMissing (d.requireTarget field) := by
  obtain ⟨target, ht⟩ := requireTarget_of_served h
  exact ht ▸ .ok target

theorem avoids_cardinalityOr (default : Cardinality) :
    Avoids SketchError.IsMissing (d.cardinalityOr default) := by
  unfold cardinalityOr
  split
  · exact .ok _
  · split
    · exact .ok _
    · exact .broken (by simp)

variable (b : Workbench)

theorem avoids_attributeDomain (h : (Access.neededTarget FieldName.domain).Served d) :
    Avoids ModelError.IsMissing (d.attributeDomain b) :=
  .bind (.sketch (avoids_requireTarget h)) fun _ => .bind (.map .notebook) fun _ => .pure _

theorem avoids_toIdDraft (h : ∀ a ∈ EntityKind.idField.accesses, a.Served d) :
    Avoids ModelError.IsMissing (d.toIdDraft b) :=
  .bind (avoids_attributeDomain b (h _ (by simp [EntityKind.accesses]))) fun _ =>
    .bind (.sketch (avoids_requireText (h _ (by simp [EntityKind.accesses])))) fun _ => .pure _

theorem avoids_toDataDraft (h : ∀ a ∈ EntityKind.dataField.accesses, a.Served d) :
    Avoids ModelError.IsMissing (d.toDataDraft b) :=
  .bind (avoids_attributeDomain b (h _ (by simp [EntityKind.accesses]))) fun _ =>
    .bind (.sketch (avoids_requireText (h _ (by simp [EntityKind.accesses])))) fun _ =>
      .bind (.sketch (avoids_cardinalityOr _)) fun _ => .pure _

theorem avoids_toComputedDraft {parent : Definition}
    (h : ∀ a ∈ EntityKind.computedField.accesses, a.Served d) :
    Avoids ModelError.IsMissing (toComputedDraft b parent d) := by
  have hrest : Avoids ModelError.IsMissing (do
      let domain ← d.attributeDomain b
      let label ← d.requireText FieldName.label
      let cardinality ← d.cardinalityOr .optional
      let expression ← d.requireText FieldName.expression
      return (⟨d.key, label, domain, cardinality, expression⟩ : ComputedDraft)) :=
    .bind (avoids_attributeDomain b (h _ (by simp [EntityKind.accesses]))) fun _ =>
      .bind (.sketch (avoids_requireText (h _ (by simp [EntityKind.accesses])))) fun _ =>
        .bind (.sketch (avoids_cardinalityOr _)) fun _ =>
          .bind (.sketch (avoids_requireText (h _ (by simp [EntityKind.accesses])))) fun _ =>
            .pure _
  unfold toComputedDraft
  dsimp only
  split
  · exact .modelBroken (by simp)
  · exact hrest

theorem avoids_toAlias (origin : EntityDefinition) (originName : String) :
    Avoids SketchError.IsMissing (toAlias origin originName d) := by
  unfold toAlias
  split
  · exact .error (by simp [SketchError.IsMissing])
  · exact .bind (avoids_cardinalityOr _) fun _ => .pure _

theorem avoids_buildable (x : EntityDraft) : Avoids ModelError.IsMissing (buildable x) := by
  have hbuild := x.avoids_build
  unfold buildable
  split
  · exact .ok _
  · next e he =>
    refine .error ?_
    rintro ⟨_, ⟨⟩, hmissing⟩
    exact hbuild e he hmissing

theorem avoids_stereotype? : Avoids SketchError.IsMissing d.stereotype? := by
  unfold stereotype?
  split
  · exact .ok _
  · split
    · exact .ok _
    · exact .broken (by simp)

end Steps

/-! ## Constructions -/

section Constructions

variable {d : Definition} (b : Workbench)

theorem avoids_toConstraint (h : d.ServesAll .constraint) :
    Avoids SketchError.IsMissing d.toConstraint :=
  .bind (avoids_requireText (h.own _ (by simp [EntityKind.accesses]))) fun _ => .pure _

theorem avoids_toFormatter (h : d.ServesAll .formatter) :
    Avoids SketchError.IsMissing d.toFormatter :=
  .bind (avoids_requireText (h.own _ (by simp [EntityKind.accesses]))) fun _ => .pure _

theorem avoids_objectType (dataType : String) :
    Avoids SketchError.IsMissing (d.objectType dataType) := by
  unfold objectType
  split
  · exact .broken (by simp)
  · split
    · exact .ok _
    · exact .broken (by simp)

theorem avoids_primitiveScope (dataType : String) :
    Avoids ModelError.IsMissing (d.primitiveScope b dataType) := by
  unfold primitiveScope
  split
  · dsimp only
    split
    · exact .modelBroken (by simp)
    · exact .bind .notebook fun _ => .bind .notebook fun _ => .pure _
  · exact .modelBroken (by simp)

theorem avoids_domainScope (dataType : String) :
    Avoids ModelError.IsMissing (d.domainScope b dataType) := by
  unfold domainScope
  split
  · exact .sketch (.map (avoids_objectType dataType))
  · split
    · exact .sketch (.map (avoids_objectType dataType))
    · exact avoids_primitiveScope b dataType

theorem avoids_toDomain (h : d.ServesAll .domain) :
    Avoids ModelError.IsMissing (d.toDomain b) :=
  .bind (.sketch (avoids_requireTarget (h.own _ (by simp [EntityKind.accesses])))) fun _ =>
    .bind (avoids_domainScope b _) fun _ => .pure _

theorem avoids_toEntityDraft (h : d.ServesAll .entityDefinition) :
    Avoids ModelError.IsMissing (d.toEntityDraft b) :=
  .bind (.sketch avoids_stereotype?) fun _ =>
    .bind (.mapM fun c hc => avoids_toIdDraft b
      (h.nested (FieldName.ids, .idField) (by simp [EntityKind.nested]) c hc)) fun _ =>
    .bind (.mapM fun c hc => avoids_toDataDraft b
      (h.nested (FieldName.fields, .dataField) (by simp [EntityKind.nested]) c hc)) fun _ =>
    .bind (.mapM fun c hc => avoids_toComputedDraft b
      (h.nested (FieldName.computed, .computedField) (by simp [EntityKind.nested]) c hc)) fun _ =>
    avoids_buildable _

theorem avoids_toFragmentDraft (h : d.ServesAll .fragment) :
    Avoids ModelError.IsMissing (d.toFragmentDraft b) :=
  .bind (.sketch (avoids_requireTarget (h.own _ (by simp [EntityKind.accesses])))) fun _ =>
    .bind (b.avoids_entityDefinition _) fun _ =>
    .bind (.sketch (.mapM fun _ _ => avoids_toAlias _ _)) fun _ =>
    .bind (.mapM fun c hc => avoids_toDataDraft b
      (h.nested (FieldName.fields, .dataField) (by simp [EntityKind.nested]) c hc)) fun _ =>
    .bind (.mapM fun c hc => avoids_toComputedDraft b
      (h.nested (FieldName.computed, .computedField) (by simp [EntityKind.nested]) c hc)) fun _ =>
    avoids_buildable _

theorem avoids_multiplicity (field : String) :
    Avoids SketchError.IsMissing (d.multiplicity field) := by
  unfold multiplicity
  split
  · exact .broken (by simp)
  · split
    · exact .ok _
    · exact .broken (by simp)

theorem avoids_navigability (field : String) :
    Avoids SketchError.IsMissing (d.navigability field) := by
  unfold navigability
  split
  · exact .broken (by simp)
  · exact .ok _

theorem avoids_endShapes : Avoids SketchError.IsMissing d.endShapes := by
  unfold endShapes
  split
  · split
    · exact .broken (by simp)
    · split
      · exact .broken (by simp)
      · exact .ok _
  · exact .bind (avoids_multiplicity _) fun _ => .bind (avoids_multiplicity _) fun _ =>
      .bind (avoids_navigability _) fun _ => .bind (avoids_navigability _) fun _ => .pure _

theorem avoids_ends (definitionA definitionB : String) (shapes : EndShapes) :
    Avoids SketchError.IsMissing (d.ends definitionA definitionB shapes) := by
  refine .bind ?_ fun _ => .pure _
  unfold roles
  dsimp only
  split
  · exact .broken (by simp)
  · exact .ok _

theorem avoids_primarySide (shapes : EndShapes) :
    Avoids SketchError.IsMissing (d.primarySide shapes) := by
  unfold primarySide
  split
  · exact .broken (by simp)
  · exact .broken (by simp)
  · exact .ok _
  · exact .ok _

theorem avoids_toSimple (h : d.ServesAll .association) :
    Avoids ModelError.IsMissing (d.toSimple b) := by
  have hends : Avoids SketchError.IsMissing d.simpleEnds :=
    .bind (avoids_requireTarget (h.own _ (by simp [EntityKind.accesses, EntityKind.accesses.ends])))
      fun _ =>
    .bind (avoids_requireTarget (h.own _ (by simp [EntityKind.accesses, EntityKind.accesses.ends])))
      fun _ =>
    .bind avoids_endShapes fun _ => .bind (avoids_primarySide _) fun _ =>
    .bind (avoids_ends _ _ _) fun _ => .pure _
  refine .bind (.sketch hends) fun ends => .bind (b.avoids_entityDefinition _) fun _ => ?_
  dsimp only
  split
  · refine .bind (b.avoids_draft _) fun _ => ?_
    split
    · exact .modelBroken (by simp)
    · exact .pure _
  · exact .modelBroken (by simp)

theorem avoids_toManyToMany (h : d.ServesAll .manyToMany) :
    Avoids ModelError.IsMissing (d.toManyToMany b) := by
  refine .bind (.sketch (avoids_requireTarget (h.own _ (by
    simp [EntityKind.accesses, EntityKind.accesses.ends])))) fun _ => ?_
  refine .bind (.sketch (avoids_requireTarget (h.own _ (by
    simp [EntityKind.accesses, EntityKind.accesses.ends])))) fun _ => ?_
  refine .bind (.map (b.avoids_entityDefinition _)) fun _ =>
    .bind (.map (b.avoids_entityDefinition _)) fun _ => ?_
  refine .bind (.sketch (avoids_requireText (h.own _ (by
    simp [EntityKind.accesses, EntityKind.accesses.ends])))) fun _ => ?_
  dsimp only
  split
  · exact .modelBroken (by simp)
  · exact .bind (.sketch (avoids_ends _ _ _)) fun _ => .pure _

end Constructions

/-- A construction does not miss a required field of a definition that serves it. -/
theorem avoids_construct {d : Definition} {k : EntityKind}
    (hk : EntityKind.ofName? d.entity.name = some k) (h : d.ServesAll k) (b : Workbench) :
    Avoids ModelError.IsMissing (b.construct d) := by
  simp only [Workbench.construct, hk]
  cases k with
  | dataType => exact .ok _
  | constraint => exact .map (.bind (.sketch (avoids_toConstraint h)) fun _ => .pure _)
  | formatter => exact .map (.bind (.sketch (avoids_toFormatter h)) fun _ => .pure _)
  | domain => exact .map (.bind (avoids_toDomain b h) fun _ => .pure _)
  | entityDefinition => exact .map (.bind (avoids_toEntityDraft b h) fun _ => .pure _)
  | fragment => exact .map (.bind (avoids_toFragmentDraft b h) fun _ => .pure _)
  | association => exact .map (.bind (avoids_toSimple b h) fun _ => .pure _)
  | manyToMany => exact .map (.bind (avoids_toManyToMany b h) fun _ => .pure _)
  | _ => exact .error (by simp [ModelError.IsMissing, SketchError.IsMissing])

/-- **Checks cover what constructions take for granted.** A definition of the standard grammar that
has been checked serves every access of its construction, in itself and in the children it looks into:
what is needed is there, and what may be absent is absent or of the type that is read. So no
construction fails for a required field, on whatever workbench. The accesses are all that counts: a
definition that reads alike is constructed alike. -/
theorem construct_of_check {d : Definition} (hgrammar : d.OfStandard) (hcheck : d.check = .ok ()) :
    ∃ k : EntityKind, d.entity = k.entity ∧
      (∀ a ∈ k.accesses, a.Served d) ∧
      (∀ n ∈ k.nested, ∀ c ∈ d.childrenOf n.1,
        c.entity = n.2.entity ∧ ∀ a ∈ n.2.accesses, a.Served c) ∧
      (∀ b : Workbench, ∀ key field,
        b.construct d ≠ .error (.sketch (.broken key (.required field)))) ∧
      ∀ d', ReadsAlike k d d' → ∀ b : Workbench, b.construct d = b.construct d' := by
  obtain ⟨k, -, hk⟩ := List.mem_map.1 hgrammar.entity_mem
  have hname : EntityKind.ofName? d.entity.name = some k := by
    rw [← hk]
    exact k.ofName?_name
  have hserves : (∀ a ∈ k.accesses, a.Served d) ∧ ∀ n ∈ k.nested, ∀ c ∈ d.childrenOf n.1,
      c.entity = n.2.entity ∧ ∀ a ∈ n.2.accesses, a.Served c := by
    by_cases hp : d.entity.isProvided = true
    · -- Of a definition that is provided nothing is read.
      obtain rfl : k = .dataType := by simpa [← hk, EntityKind.entity] using hp
      simp [EntityKind.accesses, EntityKind.nested]
    · have hconforms := conforms_of_check (by simpa using hp) hcheck
      refine ⟨fun a ha => hconforms.served (hk ▸ k.declared_of_mem_accesses a ha), ?_⟩
      intro n hn c hc
      obtain ⟨hentity, hchecked⟩ := hconforms.entity_of_nested hgrammar hk.symm hn hc
      have hc' : c.Conforms :=
        conforms_of_check (hentity ▸ k.isProvided_of_mem_nested n hn) hchecked
      exact ⟨hentity, fun a ha => hc'.served (hentity ▸ n.2.declared_of_mem_accesses a ha)⟩
  obtain ⟨hown, hnested⟩ := hserves
  refine ⟨k, hk.symm, hown, hnested, fun b key field he => ?_, fun d' h b =>
    construct_eq_of_alike b hname h⟩
  exact avoids_construct hname ⟨hown, fun n hn c hc => (hnested n hn c hc).2⟩ b _ he
    ⟨_, rfl, key, field, rfl⟩

/-- An entity definition with an identifier and a computed attribute. -/
def bookDefinition : Definition :=
  let isbn := ((empty EntityKind.idField.entity "isbn" none).setProperty FieldName.label
    (.text "ISBN")).addLinks FieldName.domain ["DoIsbn"]
  let title := (((empty EntityKind.computedField.entity "title" none).setProperty FieldName.label
    (.text "Title")).setProperty FieldName.expression (.text "upper")).addLinks FieldName.domain
      ["DoTitle"]
  (((empty EntityKind.entityDefinition.entity "Book" none).setProperty FieldName.displayField
    (.text "title")).addChild FieldName.ids isbn).addChild FieldName.computed title

theorem construct_of_check_bookDefinition :
    bookDefinition.check = .ok () ∧
      (∀ c ∈ bookDefinition.childrenOf FieldName.computed,
        (Access.neededText FieldName.expression).Served c) ∧
      ∀ b : Workbench, ∀ key field,
        b.construct bookDefinition ≠ .error (.sketch (.broken key (.required field))) := by
  have hleaf : ∀ e ∈ bookDefinition.children, ∀ c ∈ e.2,
      c.entity ∈ Grammar.standard.entities ∧ c.children.length = 0 := by
    decide
  have hgrammar : bookDefinition.OfStandard := by
    refine .mk (by decide) fun e he c hc => ?_
    obtain ⟨hentity, hnone⟩ := hleaf e he c hc
    exact .mk hentity (by simp [List.length_eq_zero_iff.1 hnone])
  have hcheck : bookDefinition.check = .ok () := by
    decide +kernel
  obtain ⟨k, hk, -, hnested, hconstruct, -⟩ := construct_of_check hgrammar hcheck
  have hkind : ∀ k : EntityKind, bookDefinition.entity = k.entity → k = .entityDefinition := by
    intro k
    cases k <;> decide
  obtain rfl := hkind k hk
  refine ⟨hcheck, fun c hc => ?_, hconstruct⟩
  exact (hnested (FieldName.computed, .computedField) (by decide) c hc).2 _ (by decide)

end Definition

end Metamodel
