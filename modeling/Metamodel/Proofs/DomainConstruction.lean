import Metamodel.Proofs.Accesses
import Metamodel.Proofs.Construction

set_option autoImplicit false

/-! # The construction of domains is exact

What a domain ranges over depends on four inputs, each of which may be absent: the data type,
`TYPE`, the formatter and the constraints. `Definition.RangesOver` lists the combinations that are
allowed, and `toDomain_exact` says that the construction accepts just those and gives what they
describe.

A workbench holds finished sketches, drafts and the prior notebook. Whether a name leads to a
finished sketch of a kind is said without its look-up (`Workbench.HoldsFinished`); a draft never
does. -/

namespace Metamodel

namespace Workbench

/-! ## Finished sketches -/

variable {b : Workbench} {name : String} {kind : SketchKind}

/-- A finished sketch of the given kind stands under the given name, on the workbench or in the
prior notebook. -/
def HoldsFinished (b : Workbench) (name : String) (kind : SketchKind) : Prop :=
  ∃ s, (b.slot? name = some (.finished s) ∨ b.prior.get? name = some s) ∧ s.kind = kind

theorem resolve_eq_ok_iff {s : Sketch} :
    b.resolve name kind = .ok s ↔
      (b.slot? name = some (.finished s) ∨ b.prior.get? name = some s) ∧ s.kind = kind := by
  -- A name that has a slot is new to the prior notebook, so only one of the two can hold it.
  have hprior : ∀ {slot}, b.slot? name = some slot → b.prior.get? name ≠ some s := by
    intro slot hslot hs
    simp [slot?_eq_none_of_prior hs] at hslot
  unfold resolve
  cases hslot : b.slot? name with
  | none => simp [Notebook.resolve_eq_ok]
  | some slot =>
    cases slot with
    | finished t =>
      simp only [Notebook.expectKind_eq_ok, hprior hslot, or_false, Option.some.injEq,
        Slot.finished.injEq]
      constructor
      · rintro ⟨rfl, hk⟩
        exact ⟨rfl, hk⟩
      · rintro ⟨rfl, hk⟩
        exact ⟨rfl, hk⟩
    | draft x =>
      simp only [hprior hslot, or_false, Option.some.injEq, reduceCtorEq, false_and, iff_false]
      split <;> simp

theorem exists_resolve_eq_ok_iff :
    (∃ s, b.resolve name kind = .ok s) ↔ b.HoldsFinished name kind :=
  exists_congr fun _ => resolve_eq_ok_iff

end Workbench

theorem DataType.name_ne_markers (type : DataType) :
    type.name ≠ objectMarker ∧ type.name ≠ valueObjectMarker := by
  cases type <;> decide

namespace Definition

variable {b : Workbench} {d : Definition}

/-! ## What domains range over -/

/-- What a definition of a domain describes on a workbench: objects or value objects of the type
that `TYPE` names, without formatter and constraints; or values of a primitive data type, without
`TYPE`, whose formatter and constraints are finished. -/
inductive RangesOver (b : Workbench) (d : Definition) : DomainScope → Prop
  | dataObject {type : String} (marked : d.target? FieldName.dataType = some objectMarker)
    (typed : d.property? FieldName.type = some (.text type))
    (unshown : d.targets FieldName.formatter = []) (free : d.targets FieldName.constraint = []) :
    RangesOver b d (.dataObject type)
  | valueObject {type : String} (marked : d.target? FieldName.dataType = some valueObjectMarker)
    (typed : d.property? FieldName.type = some (.text type))
    (unshown : d.targets FieldName.formatter = []) (free : d.targets FieldName.constraint = []) :
    RangesOver b d (.valueObject type)
  | primitive {type : DataType} (named : d.target? FieldName.dataType = some type.name)
    (untyped : d.property? FieldName.type = none)
    (shown : ∀ name, d.target? FieldName.formatter = some name → b.HoldsFinished name .formatter)
    (constrained : ∀ name ∈ d.targets FieldName.constraint, b.HoldsFinished name .constraint) :
    RangesOver b d
      (.primitive type (d.target? FieldName.formatter) (d.targets FieldName.constraint))

theorem objectType_eq_ok {dataType type : String} :
    d.objectType dataType = .ok type ↔ d.property? FieldName.type = some (.text type) ∧
      d.targets FieldName.formatter = [] ∧ d.targets FieldName.constraint = [] := by
  rw [← text?_eq_some_iff]
  unfold objectType target?
  split
  · next hrefined =>
    refine iff_of_false (by simp) ?_
    rintro ⟨-, hf, hc⟩
    simp [hf, hc] at hrefined
  · next hplain =>
    have hnone : d.targets FieldName.formatter = [] ∧ d.targets FieldName.constraint = [] := by
      simpa using hplain
    cases d.text? FieldName.type <;> simp [hnone]

theorem primitiveScope_eq_ok_iff (h : (Access.text FieldName.type).Served d) {dataType : String}
    {scope : DomainScope} :
    d.primitiveScope b dataType = .ok scope ↔ ∃ type : DataType, type.name = dataType ∧
      d.property? FieldName.type = none ∧
      (∀ name, d.target? FieldName.formatter = some name → b.HoldsFinished name .formatter) ∧
      (∀ name ∈ d.targets FieldName.constraint, b.HoldsFinished name .constraint) ∧
      scope = .primitive type (d.target? FieldName.formatter) (d.targets FieldName.constraint) := by
  simp only [primitiveScope_eq_ok, DataType.ofName?_eq_some_iff, text?_eq_none_iff h,
    Workbench.exists_resolve_eq_ok_iff]

theorem domainScope_eq_ok_iff (h : (Access.text FieldName.type).Served d) {dataType : String}
    (hd : d.target? FieldName.dataType = some dataType) {scope : DomainScope} :
    d.domainScope b dataType = .ok scope ↔ d.RangesOver b scope := by
  have hsame : ∀ {name}, d.target? FieldName.dataType = some name → dataType = name :=
    fun hname => Option.some.inj (hd.symm.trans hname)
  unfold domainScope
  by_cases ho : dataType = objectMarker
  · rw [if_pos ho]
    simp only [mapError_eq_ok, map_eq_ok, objectType_eq_ok]
    constructor
    · rintro ⟨type, ⟨htype, hf, hc⟩, rfl⟩
      exact .dataObject (ho ▸ hd) htype hf hc
    · intro hr
      cases hr with
      | dataObject _ htype hf hc => exact ⟨_, ⟨htype, hf, hc⟩, rfl⟩
      | valueObject hmarked => exact absurd (ho.symm.trans (hsame hmarked)) (by decide)
      | primitive hnamed =>
        exact absurd ((hsame hnamed).symm.trans ho) (DataType.name_ne_markers _).1
  rw [if_neg ho]
  by_cases hv : dataType = valueObjectMarker
  · rw [if_pos hv]
    simp only [mapError_eq_ok, map_eq_ok, objectType_eq_ok]
    constructor
    · rintro ⟨type, ⟨htype, hf, hc⟩, rfl⟩
      exact .valueObject (hv ▸ hd) htype hf hc
    · intro hr
      cases hr with
      | dataObject hmarked => exact absurd (hsame hmarked) ho
      | valueObject _ htype hf hc => exact ⟨_, ⟨htype, hf, hc⟩, rfl⟩
      | primitive hnamed =>
        exact absurd ((hsame hnamed).symm.trans hv) (DataType.name_ne_markers _).2
  · rw [if_neg hv, primitiveScope_eq_ok_iff h]
    constructor
    · rintro ⟨type, rfl, huntyped, hf, hc, rfl⟩
      exact .primitive hd huntyped hf hc
    · intro hr
      cases hr with
      | dataObject hmarked => exact absurd (hsame hmarked) ho
      | valueObject hmarked => exact absurd (hsame hmarked) hv
      | primitive hnamed huntyped hf hc =>
        exact ⟨_, (hsame hnamed).symm, huntyped, hf, hc, rfl⟩

theorem primitiveScope_eq_error {dataType : String} (h : ∀ type : DataType, type.name ≠ dataType) :
    d.primitiveScope b dataType = .error (.broken d.key (.unsupportedDataType dataType)) := by
  have hnone : DataType.ofName? dataType = none := by
    refine Option.eq_none_iff_forall_ne_some.2 fun type htype => ?_
    exact h type (DataType.ofName?_eq_some_iff.1 htype)
  simp [primitiveScope, hnone]

/-- **The construction of domains is exact.** A definition that has been checked becomes a domain
exactly if it describes what the domain ranges over, whatever the workbench holds, and the domain
ranges over that. A data type that is neither a marker nor primitive is refused, even if something
of its name is there. -/
theorem toDomain_exact {d : Definition} (hk : d.entity = EntityKind.domain.entity)
    (hcheck : d.check = .ok ()) (b : Workbench) :
    (∀ x, d.toDomain b = .ok x ↔ ∃ scope, d.RangesOver b scope ∧
      x = ⟨d.key, d.package, scope, d.text? FieldName.storeType,
        (d.flag? FieldName.multiple).getD false⟩) ∧
    ∀ name, d.target? FieldName.dataType = some name → name ≠ objectMarker →
      name ≠ valueObjectMarker → (∀ type : DataType, type.name ≠ name) →
      d.toDomain b = .error (.broken d.key (.unsupportedDataType name)) := by
  have hp : d.entity.isProvided = false := hk ▸ rfl
  have hserved : ∀ a ∈ EntityKind.domain.accesses, a.Served d := fun a ha =>
    (conforms_of_check hp hcheck).served (hk ▸ EntityKind.domain.declared_of_mem_accesses a ha)
  have htyped := hserved (.text FieldName.type) (by simp [EntityKind.accesses])
  obtain ⟨dataType, hd⟩ :=
    hserved (.neededTarget FieldName.dataType) (by simp [EntityKind.accesses])
  refine ⟨fun x => ?_, fun name hname ho hv hprimitive => ?_⟩
  · simp only [toDomain_eq_ok, requireTarget_eq_ok, hd, Option.some.injEq, exists_and_left,
      exists_eq_left', domainScope_eq_ok_iff htyped hd]
  · have hscope : d.domainScope b name = .error (.broken d.key (.unsupportedDataType name)) := by
      rw [domainScope, if_neg ho, if_neg hv, primitiveScope_eq_error hprimitive]
    rw [toDomain, requireTarget_eq_ok.2 hname]
    show (d.domainScope b name >>= _) = _
    rw [hscope]
    rfl

/-- A domain of amounts, shown by a formatter and constrained twice by the same constraint. -/
def amount : Definition :=
  (((empty EntityKind.domain.entity "DoAmount" none).addLinks FieldName.dataType
    ["BigDecimal"]).addLinks FieldName.formatter ["FmtAmount"]).addLinks FieldName.constraint
    ["CkPositive", "CkPositive"]

/-- A workbench that holds the formatter, on a prior notebook that holds the constraint. -/
def amountBench : Workbench where
  prior := ⟨[.constraint ⟨"CkPositive", none, "Positive", none, none⟩], by decide⟩
  slots := [.finished (.formatter ⟨"FmtAmount", none, "Amount", none⟩)]
  distinct := by decide

theorem toDomain_exact_amount :
    amount.toDomain amountBench = .ok ⟨"DoAmount", none,
      .primitive .bigDecimal (some "FmtAmount") ["CkPositive", "CkPositive"], none, false⟩ ∧
    ∀ x, amount.toDomain (.start .empty) ≠ .ok x := by
  have hcheck : amount.check = .ok () := by decide +kernel
  have hranges : amount.RangesOver amountBench
      (.primitive .bigDecimal (some "FmtAmount") ["CkPositive", "CkPositive"]) := by
    refine .primitive rfl rfl ?_ ?_
    · intro name hname
      obtain rfl : "FmtAmount" = name := Option.some.inj hname
      exact ⟨_, .inl rfl, rfl⟩
    · intro name hname
      have hsame : name ∈ ["CkPositive", "CkPositive"] := hname
      obtain rfl : name = "CkPositive" := by simpa using hsame
      exact ⟨_, .inr rfl, rfl⟩
  refine ⟨((toDomain_exact rfl hcheck amountBench).1 _).2 ⟨_, hranges, rfl⟩, fun x hx => ?_⟩
  obtain ⟨scope, hscope, -⟩ := ((toDomain_exact rfl hcheck (.start .empty)).1 x).1 hx
  cases hscope with
  | dataObject hmarked => exact absurd hmarked (by decide)
  | valueObject hmarked => exact absurd hmarked (by decide)
  | primitive _ _ hshown =>
    obtain ⟨s, hs, -⟩ := hshown "FmtAmount" rfl
    rcases hs with hs | hs <;> cases hs

end Definition

end Metamodel
