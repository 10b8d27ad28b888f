import Metamodel.Proofs.SolutionOrder

set_option autoImplicit false

/-! # More names from outside

Which names are satisfied from outside matters only for names that are linked to. `AgreeOn` says
that two views of the outside tell the targets of some definitions alike; then the checks, each
pass, the graph of a cycle and so the order, or the error, are the same (`order_congr`).

A repository that is solved links to nothing but what it stores and what it is given from outside.
What it stores is never outside, however it is declared, and the rest is outside already. So further
declarations and a prior notebook with further names leave the solution as it is
(`solve_of_more_names`). -/

namespace Metamodel

namespace Definition

variable {outside outside' : String → Bool}

/-! ## Views of the outside -/

/-- The two views tell alike whether the targets of some definitions are outside. -/
def AgreeOn (outside outside' : String → Bool) (ds : List Definition) : Prop :=
  ∀ d ∈ ds, ∀ name, d.LinksTo name → outside name = outside' name

theorem AgreeOn.subset {ds ds' : List Definition} (h : AgreeOn outside outside' ds)
    (hsub : ∀ d ∈ ds', d ∈ ds) : AgreeOn outside outside' ds' :=
  fun d hd => h d (hsub d hd)

theorem AgreeOn.internalTargets {ds : List Definition} (h : AgreeOn outside outside' ds)
    {d : Definition} (hd : d ∈ ds) : d.internalTargets outside = d.internalTargets outside' := by
  refine List.filter_congr fun name hname => ?_
  rw [h d hd name (linksTo_iff.2 hname)]

theorem AgreeOn.orphans {ds : List Definition} (h : AgreeOn outside outside' ds) :
    orphans outside ds = orphans outside' ds := by
  refine List.flatMap_congr fun d hd => ?_
  have hfilter : d.allLinks.filter (fun l => !outside l.target && !(keys ds).contains l.target) =
      d.allLinks.filter fun l => !outside' l.target && !(keys ds).contains l.target := by
    refine List.filter_congr fun l hl => ?_
    rw [h d hd l.target (linksTo_iff.2 (List.mem_map_of_mem hl))]
  rw [hfilter]

theorem AgreeOn.pass {ds : List Definition} (h : AgreeOn outside outside' ds)
    (placed : List String) : pass outside placed ds = pass outside' placed ds := by
  induction ds generalizing placed with
  | nil => rfl
  | cons d ds ih =>
    have hready : d.isReady outside placed = d.isReady outside' placed := by
      rw [isReady, isReady, h.internalTargets List.mem_cons_self]
    have hrest := ih (h.subset fun c hc => List.mem_cons_of_mem d hc)
    simp only [Definition.pass, hready, hrest]

theorem AgreeOn.cyclicError {components : Graph String → List (List String)}
    {ds : List Definition} (h : AgreeOn outside outside' ds) :
    cyclicError outside components ds = cyclicError outside' components ds := by
  have hgraph : linkGraph outside ds = linkGraph outside' ds := by
    rw [linkGraph, linkGraph]
    congr 1
    funext key
    congr 2
    exact List.flatMap_congr fun d hd => h.internalTargets (List.mem_of_mem_filter hd)
  rw [Definition.cyclicError, Definition.cyclicError, hgraph]

/-- A pass leaves some of the definitions, on which the views still agree. -/
theorem AgreeOn.later {ds now later : List Definition} (h : AgreeOn outside outside' ds)
    {placed : List String} (hp : Definition.pass outside placed ds = (now, later)) :
    AgreeOn outside outside' later := by
  refine h.subset fun d hd => ?_
  have hperm := perm_pass outside placed ds
  rw [hp] at hperm
  exact hperm.mem_iff.1 (List.mem_append_right now hd)

theorem AgreeOn.passes {components : Graph String → List (List String)}
    {placed left : List Definition} (h : AgreeOn outside outside' left) :
    passes outside components placed left = passes outside' components placed left := by
  induction placed, left using Definition.passes.induct outside with
  | case1 placed => rw [Definition.passes, Definition.passes, if_pos rfl, if_pos rfl]
  | case2 placed left hne later hp =>
    have hp' := (h.pass (keys placed)).symm.trans hp
    rw [passes_of_pass_nil outside components hne hp,
      passes_of_pass_nil outside' components hne hp',
      (h.later hp).cyclicError]
  | case3 placed left hne d now later hp ih =>
    have hp' := (h.pass (keys placed)).symm.trans hp
    rw [passes_of_pass_cons outside components hne hp,
      passes_of_pass_cons outside' components hne hp']
    exact ih (h.later hp)

/-- Only whether targets are outside matters for the order, and for the error if there is none. -/
theorem order_congr {ds : List Definition} (h : AgreeOn outside outside' ds) :
    order outside ds = order outside' ds := by
  rw [order, order, orderBy, orderBy, h.orphans, h.passes]

end Definition

namespace Repository

variable {r r' : Repository} {prior prior' : Notebook} {ds : List Definition}

/-! ## More names -/

/-- The second repository stores and queues the same as the first, and whatever name is declared or
in the prior notebook for the first is so for the second. -/
structure GivenMore (r : Repository) (prior : Notebook) (r' : Repository) (prior' : Notebook) :
    Prop where
  definitions : r'.definitions = r.definitions
  alterations : r'.alterations = r.alterations
  names : ∀ name, prior.contains name = true ∨ r.isDeclared name = true →
    prior'.contains name = true ∨ r'.isDeclared name = true

theorem GivenMore.contains (h : r.GivenMore prior r' prior') (name : String) :
    r'.contains name = r.contains name := by
  rw [Repository.contains, Repository.contains, h.definitions]

/-- What is stored is not outside, and what is outside already stays there. -/
theorem GivenMore.isExternal_eq (h : r.GivenMore prior r' prior') {name : String}
    (hname : r.isExternal prior name = true ∨ name ∈ Definition.keys r.definitions) :
    r.isExternal prior name = r'.isExternal prior' name := by
  rcases hname with hout | hstored
  · have hout' := hout
    simp only [isExternal, Bool.and_eq_true, Bool.or_eq_true, Bool.not_eq_true'] at hout'
    rw [hout, isExternal, h.contains, hout'.1, Bool.not_false, Bool.true_and, eq_comm,
      Bool.or_eq_true]
    exact h.names name hout'.2
  · rw [isExternal_eq_false hstored, isExternal_eq_false (h.definitions ▸ hstored)]

/-- The definitions of a repository that can be ordered link to nothing that would change sides. -/
theorem GivenMore.agreeOn (h : r.GivenMore prior r' prior')
    (hr : Definition.Resolved (r.isExternal prior) (r.definitions.map (amended r.alterations))) :
    Definition.AgreeOn (r.isExternal prior) (r'.isExternal prior')
      (r.definitions.map (amended r.alterations)) := by
  intro d hd name hl
  have hname := hr d hd name hl
  rw [keys_amended_definitions] at hname
  exact h.isExternal_eq hname

theorem GivenMore.solve (h : r.GivenMore prior r' prior')
    (hd : (Definition.keys r.definitions).Nodup) (hs : r.solve prior = .ok ds) :
    r'.solve prior' = .ok ds := by
  obtain ⟨hfits, hlinks, ordered, ho, hchecks, rfl⟩ := (solve_eq_ok hd).1 hs
  have hagree := h.agreeOn (Definition.resolved_of_order _ ho)
  have ho' := (Definition.order_congr hagree).symm.trans ho
  rw [← h.definitions] at hd
  rw [solve_eq_ok hd, h.definitions, h.alterations]
  exact ⟨hfits, hlinks, ordered, ho', hchecks, rfl⟩

/-! ## More declarations -/

theorem GivenMore.trans {r'' : Repository} {prior'' : Notebook} (h : r.GivenMore prior r' prior')
    (h' : r'.GivenMore prior' r'' prior'') : r.GivenMore prior r'' prior'' where
  definitions := h'.definitions.trans h.definitions
  alterations := h'.alterations.trans h.alterations
  names name hname := h'.names name (h.names name hname)

theorem givenMore_declare (r : Repository) (prior : Notebook) (name : String) :
    r.GivenMore prior (r.declare name) prior where
  definitions := rfl
  alterations := rfl
  names n hn := by
    refine hn.imp_right fun h => ?_
    rw [isDeclared, List.contains_iff_mem] at h ⊢
    exact mem_addName.2 (.inr h)

theorem givenMore_foldl_declare (names : List String) (r : Repository) (prior : Notebook) :
    r.GivenMore prior (names.foldl declare r) prior := by
  induction names generalizing r with
  | nil => exact ⟨rfl, rfl, fun _ h => h⟩
  | cons name names ih => exact (r.givenMore_declare prior name).trans (ih (r.declare name))

/-- **More names from outside do not disturb a solution.** What a repository is solved to on a prior
notebook it is solved to, in the same order, after any names have been declared, stored ones as
well, and on any notebook that has the names of the prior one. -/
theorem solve_of_more_names {dialect : Dialect} (hr : r.Reachable dialect)
    (hs : r.solve prior = .ok ds)
    (hprior : ∀ name, prior.contains name = true → prior'.contains name = true)
    (names : List String) : (names.foldl declare r).solve prior' = .ok ds := by
  have hmore := givenMore_foldl_declare names r prior
  have hnotebook : (names.foldl declare r).GivenMore prior (names.foldl declare r) prior' :=
    ⟨rfl, rfl, fun name hname => hname.imp_left (hprior name)⟩
  exact (hmore.trans hnotebook).solve hr.nodup_keys hs

/-- A domain with a formatter and two constraints. The formatter is added behind it, one constraint
is declared, and the other one is left to the prior notebook. -/
def checkedDomain : List Filling :=
  let domain := Definition.empty EntityKind.domain.entity "DoPlate" none
  let formatter := Definition.empty EntityKind.formatter.entity "FmtPlate" none
  [.declare "CkShape",
    .add (((domain.addLinks FieldName.dataType ["String"]).addLinks FieldName.constraint
      ["CkShape", "CkLength"]).addLinks FieldName.formatter ["FmtPlate"]),
    .add (formatter.setProperty FieldName.className (.text "Plate"))]

/-- A notebook that holds a constraint. -/
def lengthNotebook : Notebook := ⟨[.constraint ⟨"CkLength", none, "Length", none, none⟩], by decide⟩

/-- A notebook that also holds a constraint and a formatter of other names. -/
def fullNotebook : Notebook :=
  ⟨[.formatter ⟨"FmtPlate", none, "Other", none⟩,
    .constraint ⟨"CkLength", none, "Other", none, none⟩,
    .constraint ⟨"CkShape", none, "Shape", none, none⟩], by decide⟩

theorem solve_of_more_names_checkedDomain :
    ∃ ds, (filled .standard checkedDomain).solve lengthNotebook = .ok ds ∧
      Definition.keys ds = ["FmtPlate", "DoPlate"] ∧
      (["FmtPlate", "DoPlate", "String", "Elsewhere"].foldl declare
        (filled .standard checkedDomain)).solve fullNotebook = .ok ds := by
  have hsolve : Definition.keys <$> (filled .standard checkedDomain).solve lengthNotebook =
      .ok ["FmtPlate", "DoPlate"] := by
    decide +kernel
  obtain ⟨ds, hds, hkeys⟩ := functorMap_eq_ok.1 hsolve
  have hprior : ∀ name, lengthNotebook.contains name = true →
      fullNotebook.contains name = true := by
    intro name hname
    have hmem : name ∈ ["CkLength"] := Named.has_iff.1 hname
    obtain rfl := List.mem_singleton.1 hmem
    decide
  exact ⟨ds, hds, hkeys, solve_of_more_names ⟨checkedDomain, rfl⟩ hds hprior _⟩

end Repository

end Metamodel
