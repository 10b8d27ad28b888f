import Metamodel.Proofs.SolutionOrder

set_option autoImplicit false

/-! # No alteration is lost

What solving gives for a stored definition is that definition with the alterations queued for its
key, each of them once and in the order of the queue: the last value set wins for a property, and
links and children are joined to those there are (`Definition.UpdatedBy`). When the alterations were
queued does not matter otherwise, nor what was queued for other keys in between
(`Filling.Interleaved`).

Merging writes to one collection after the other. `Named.valuesOf` says what such a sequence of
writes leaves under each name, and the laws for one alteration and for a whole queue follow. -/

namespace Metamodel

namespace Named

variable {β : Type}

/-! ## Writing several values -/

/-- All values that are paired with a name, in order. -/
def valuesOf (xs : List (String × β)) (n : String) : List β :=
  (xs.filter (·.1 = n)).map Prod.snd

theorem valuesOf_cons (x : String × β) (xs : List (String × β)) (n : String) :
    valuesOf (x :: xs) n = if x.1 = n then x.2 :: valuesOf xs n else valuesOf xs n := by
  by_cases h : x.1 = n <;> simp [valuesOf, h]

theorem value?_put (x : String × β) (xs : List (String × β)) (n : String) :
    value? (put x xs) n = if x.1 = n then some x.2 else value? xs n := by
  simp only [value?, get?_put, nameOf]
  by_cases h : x.1 = n <;> simp [h]

/-- The last value that is put under a name stays there. -/
theorem value?_foldl_put (xs ys : List (String × β)) (n : String) :
    value? (xs.foldl (fun ys x => put x ys) ys) n =
      (valuesOf xs n).getLast?.or (value? ys n) := by
  induction xs generalizing ys with
  | nil => rfl
  | cons x xs ih =>
    rw [List.foldl_cons, ih, value?_put, valuesOf_cons]
    by_cases h : x.1 = n
    · rw [if_pos h, if_pos h, List.getLast?_cons]
      cases (valuesOf xs n).getLast? <;> rfl
    · rw [if_neg h, if_neg h]

/-- Values that extend a name are joined in order behind those that are there. -/
theorem value?_foldl_extend (xs ys : List (String × List β)) (n : String) :
    (value? (xs.foldl (fun ys x => extend x.1 x.2 ys) ys) n).getD [] =
      (value? ys n).getD [] ++ (valuesOf xs n).flatten := by
  induction xs generalizing ys with
  | nil => exact (List.append_nil _).symm
  | cons x xs ih =>
    rw [List.foldl_cons, ih, value?_extend, valuesOf_cons]
    by_cases h : x.1 = n
    · rw [if_pos h, if_pos h, Option.getD_some, h, List.append_assoc, List.flatten_cons]
    · rw [if_neg h, if_neg h]

theorem has_foldl_extend (xs ys : List (String × List β)) (n : String) :
    has (xs.foldl (fun ys x => extend x.1 x.2 ys) ys) n = (has ys n || has xs n) := by
  induction xs generalizing ys with
  | nil => simp [has]
  | cons x xs ih =>
    have hextend : has (extend x.1 x.2 ys) n = (has ys n || decide (x.1 = n)) := by
      rw [Bool.eq_iff_iff, has_iff, names_extend, Bool.or_eq_true, has_iff, decide_eq_true_eq]
      split
      · next hx => exact ⟨.inl, fun h => h.elim id fun hn => hn ▸ hx⟩
      · simp [eq_comm]
    have hcons : has (x :: xs) n = (decide (x.1 = n) || has xs n) := rfl
    rw [List.foldl_cons, ih, hextend, hcons, Bool.or_assoc]

end Named

namespace Definition

open Named

/-! ## Alterations -/

/-- The definition `e` is `d` with some alterations. Of the values that they set a property to, the
last one counts; the links and children that they add to a field come after those of `d`, in their
order; and a field counts as used if one of them uses it. -/
structure UpdatedBy (changes : List Definition) (d e : Definition) : Prop where
  entity : e.entity = d.entity
  key : e.key = d.key
  package : e.package = d.package
  property : ∀ field, e.property? field =
    (changes.flatMap fun c => valuesOf c.properties field).getLast?.or (d.property? field)
  targets : ∀ field, e.targets field =
    d.targets field ++ (changes.flatMap fun c => valuesOf c.links field).flatten
  childrenOf : ∀ field, e.childrenOf field =
    d.childrenOf field ++ (changes.flatMap fun c => valuesOf c.children field).flatten
  usesLinks : ∀ field, has e.links field = (has d.links field || changes.any (has ·.links field))
  usesChildren : ∀ field, has e.children field =
    (has d.children field || changes.any (has ·.children field))

theorem updatedBy_nil (d : Definition) : UpdatedBy [] d d := by
  constructor <;> simp

/-- Merging one more alteration. -/
theorem UpdatedBy.concat {changes : List Definition} {d e : Definition}
    (h : UpdatedBy changes d e) (c : Definition) : UpdatedBy (changes ++ [c]) d (e.merge c) where
  entity := h.entity
  key := h.key
  package := h.package
  property field := by
    have hmerge := value?_foldl_put c.properties e.properties field
    have he := h.property field
    rw [property?] at he
    rw [property?, merge, hmerge, he, List.flatMap_append, List.getLast?_append,
      List.flatMap_singleton, Option.or_assoc]
  targets field := by
    have hmerge := value?_foldl_extend c.links e.links field
    have he := h.targets field
    rw [Definition.targets] at he
    rw [Definition.targets, merge, hmerge, he, List.flatMap_append, List.flatMap_singleton,
      List.flatten_append, List.append_assoc]
  childrenOf field := by
    have hmerge := value?_foldl_extend c.children e.children field
    have he := h.childrenOf field
    rw [Definition.childrenOf] at he
    rw [Definition.childrenOf, merge, hmerge, he, List.flatMap_append, List.flatMap_singleton,
      List.flatten_append, List.append_assoc]
  usesLinks field := by
    rw [merge, has_foldl_extend, h.usesLinks, List.any_append, Bool.or_assoc]
    simp
  usesChildren field := by
    rw [merge, has_foldl_extend, h.usesChildren, List.any_append, Bool.or_assoc]
    simp

theorem updatedBy_foldl_merge (changes : List Definition) (d : Definition) :
    UpdatedBy changes d (changes.foldl merge d) := by
  induction changes using List.reverseRecOn with
  | nil => exact updatedBy_nil d
  | append_singleton changes c ih =>
    rw [List.foldl_append, List.foldl_cons, List.foldl_nil]
    exact ih.concat c

end Definition

/-! ## Interleaved steps -/

/-- Both sequences add the same definitions in the same order, queue for each key the same
alterations in the same order and declare the same names. Otherwise their steps may be interleaved
in different ways. -/
structure Filling.Interleaved (steps steps' : List Filling) : Prop where
  added : steps.filterMap added? = steps'.filterMap added?
  queued : ∀ key, (steps.filterMap queued?).filter (·.key = key) =
    (steps'.filterMap queued?).filter (·.key = key)
  declared : ∀ name, name ∈ steps.filterMap declared? ↔ name ∈ steps'.filterMap declared?

namespace Repository

theorem definitions_eq_of_interleaved {steps steps' : List Filling}
    (h : Filling.Interleaved steps steps') (dialect : Dialect) :
    (filled dialect steps).definitions = (filled dialect steps').definitions := by
  rw [definitions_filled, definitions_filled, h.added]

theorem sameContents_of_interleaved {steps steps' : List Filling}
    (h : Filling.Interleaved steps steps') (dialect : Dialect) :
    (filled dialect steps).SameContents (filled dialect steps') :=
  sameContents_filled (.of_eq (definitions_eq_of_interleaved h dialect)) h.queued h.declared

/-! ## Solving -/

/-- **No update is lost or duplicated.** A solution holds each definition that is stored and not
provided once, with the alterations that were queued for its key; and however the steps that filled
the repository are interleaved, the solution is the same. -/
theorem updatedBy_of_solve {dialect : Dialect} {steps : List Filling} {prior : Notebook}
    {ds : List Definition} (h : (filled dialect steps).solve prior = .ok ds) :
    (Definition.keys ds).Nodup ∧
      (Definition.keys ds).Perm
        (Definition.keys ((filled dialect steps).definitions.filter (!·.entity.isProvided))) ∧
      (∀ d ∈ (filled dialect steps).definitions, d.entity.isProvided = false →
        ∃ e ∈ ds, Definition.UpdatedBy
          ((steps.filterMap Filling.queued?).filter (·.key = d.key)) d e) ∧
      ∀ steps', Filling.Interleaved steps steps' →
        (filled dialect steps').solve prior = .ok ds := by
  have hd := nodup_keys_filled dialect steps
  refine ⟨nodup_keys_of_solve hd h, keys_perm_of_solve hd h, ?_, ?_⟩
  · intro d hm hp
    refine ⟨_, (perm_of_solve hd h).2.mem_iff.2 (mem_constructed.2 ⟨d, hm, hp, rfl⟩), ?_⟩
    rw [amended_eq_foldl, alterations_filled]
    exact Definition.updatedBy_foldl_merge _ d
  · intro steps' hsteps
    exact solve_congr hd (sameContents_of_interleaved hsteps dialect)
      (definitions_eq_of_interleaved hsteps dialect) h

/-- A domain and its formatter. Both are altered, the domain before it is added and once more behind
an alteration of the formatter. -/
def lateDomain : List Filling :=
  let formatter := Definition.empty EntityKind.formatter.entity "FmtPlate" none
  let domain := Definition.empty EntityKind.domain.entity "DoPlate" none
  [.alter ((domain.addLinks FieldName.formatter ["FmtPlate"]).setProperty
      FieldName.storeType (.text "TEXT")),
    .add (formatter.setProperty FieldName.className (.text "Plate")),
    .declare "DoElsewhere",
    .add ((domain.addLinks FieldName.dataType ["String"]).setProperty
      FieldName.storeType (.text "VARCHAR")),
    .alter (formatter.setProperty FieldName.args (.text "upper")),
    .alter (domain.setProperty FieldName.storeType (.text "CLOB"))]

theorem updatedBy_of_solve_lateDomain :
    ∃ ds, (filled .standard lateDomain).solve .empty = .ok ds ∧
      Definition.keys ds = ["FmtPlate", "DoPlate"] ∧
      (Definition.keys ds).Nodup ∧
      (Definition.keys ds).Perm (Definition.keys
        ((filled .standard lateDomain).definitions.filter (!·.entity.isProvided))) ∧
      (∀ d ∈ (filled .standard lateDomain).definitions, d.entity.isProvided = false →
        ∃ e ∈ ds, Definition.UpdatedBy
          ((lateDomain.filterMap Filling.queued?).filter (·.key = d.key)) d e) ∧
      ∀ steps', Filling.Interleaved lateDomain steps' →
        (filled .standard steps').solve .empty = .ok ds := by
  have hsolve : Definition.keys <$> (filled .standard lateDomain).solve .empty =
      .ok ["FmtPlate", "DoPlate"] := by
    decide +kernel
  obtain ⟨ds, hds, hkeys⟩ := functorMap_eq_ok.1 hsolve
  exact ⟨ds, hds, hkeys, updatedBy_of_solve hds⟩

end Repository

end Metamodel
