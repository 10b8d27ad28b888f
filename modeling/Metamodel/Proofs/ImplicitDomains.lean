import Metamodel.Proofs.Nesting
import Metamodel.Proofs.OneSketchEach
import Metamodel.Proofs.ReferenceClosure
import Metamodel.Proofs.Updates

set_option autoImplicit false

/-! # Implicit domains

Whoever creates an entity definition or fragment `X` creates the domain `DoX` of its objects as well.
From there on `DoX` is a definition like any other: it can be altered, and its name is taken. In a
notebook that has come about by compiling texts, one project after the other from the empty notebook
on (`Project.Chain`), every entity definition still has its implicit domain, which ranges over its
objects unless an alteration has set another type (`Project.hasImplicitDomain_of_chain`).

That is so because the data type `DtObject` stands first in the implicit domain and alterations only
add to it (`scope_of_implicitDomain`), and because a key that is altered, other than in vain, is the
name of a sketch from there on (`Repository.Nested.mem_keys_of_solve`): neither before `X` is created
nor after its project is there anything to alter under the name `DoX`. -/

namespace Metamodel

open Named

namespace Definition

/-! ## The scope of an implicit domain -/

/-- The values that the alterations of a key set the type of a domain to, in their order. -/
def typesGiven (changes : List Definition) (key : String) : List Value :=
  (changes.filter (·.key = key)).flatMap fun c => valuesOf c.properties FieldName.type

theorem typesGiven_append (changes more : List Definition) (key : String) :
    typesGiven (changes ++ more) key = typesGiven changes key ++ typesGiven more key := by
  simp [typesGiven]

/-- Alterations that set nothing do not count. -/
theorem typesGiven_eq_nil {changes : List Definition} {key : String}
    (h : ∀ c ∈ changes, c.properties ≠ [] → c.key ≠ key) : typesGiven changes key = [] := by
  rw [typesGiven, List.flatMap_eq_nil_iff]
  intro c hc
  obtain ⟨hm, hkey⟩ := List.mem_filter.1 hc
  have hnone : c.properties = [] := by
    by_contra hne
    exact h c hm hne (by simpa using hkey)
  rw [hnone]
  rfl

/-- A domain whose first data type is the marker of objects ranges over the type that is set. -/
theorem scope_of_toDomain {b : Workbench} {d : Definition} {x : Domain}
    (h : d.toDomain b = .ok x) (ht : d.target? FieldName.dataType = some objectMarker) :
    ∃ type, d.property? FieldName.type = some (.text type) ∧ x.scope = .dataObject type := by
  obtain ⟨dataType, scope, hd, hs, rfl⟩ := toDomain_eq_ok.1 h
  rw [requireTarget, ht] at hd
  cases hd
  rw [domainScope, if_pos rfl, mapError_eq_ok, map_eq_ok] at hs
  obtain ⟨type, htype, rfl⟩ := hs
  refine ⟨type, ?_, rfl⟩
  unfold objectType at htype
  split at htype
  · cases htype
  · split at htype
    · next text htext =>
      cases htype
      obtain ⟨v, hv, hvalue⟩ := Option.bind_eq_some_iff.1 htext
      cases v <;> cases hvalue
      exact hv
    · cases htype

/-- Whatever alterations have been made, an implicit domain ranges over the objects of the type that
was set last, or else of its definition. -/
theorem scope_of_implicitDomain {changes : List Definition} {d e : Definition} {b : Workbench}
    {x : Domain} (h : UpdatedBy (changes.filter (·.key = Domain.implicitName d.key))
      (Dialect.implicitDomain d) e) (hx : e.toDomain b = .ok x) :
    ∃ type, (typesGiven changes (Domain.implicitName d.key)).getLast?.getD (.text d.key) =
        .text type ∧ x.scope = .dataObject type := by
  have hmarker : (Dialect.implicitDomain d).targets FieldName.dataType = [objectMarker] := rfl
  have hown : (Dialect.implicitDomain d).property? FieldName.type = some (.text d.key) := rfl
  have htarget : e.target? FieldName.dataType = some objectMarker := by
    rw [target?, h.targets, hmarker]
    rfl
  obtain ⟨type, htype, hscope⟩ := scope_of_toDomain hx htarget
  refine ⟨type, ?_, hscope⟩
  rw [h.property, hown, Option.or_some] at htype
  exact Option.some.inj htype

end Definition

/-- A domain of a run is found in its result as it was constructed. -/
theorem Run.exists_domain {p : Notebook} {ds : List Definition} {b : Workbench} (h : Run p ds b)
    {d : Definition} (hd : d ∈ ds) (hk : d.kind? = some .domain) :
    ∃ c x, d.toDomain c = .ok x ∧ b.preview.get? d.key = some (.domain x) := by
  obtain ⟨c, c', -, hsup, -, hg⟩ := h.exists_supplied hd
  cases hsup with
  | provided hk' => cases hk.symm.trans hk'
  | related hk' => cases hk.symm.trans hk'
  | taken hs ha =>
    cases hs with
    | @domain x _ hx =>
      have hname : d.key = (Slot.finished (.domain x)).name :=
        (Definition.Becomes.domain hk hx).name.symm
      obtain ⟨t, ht, hgrow⟩ := hg d.key (.domain x) (by
        rw [Workbench.get?_preview_accept ha, if_pos hname]
        rfl)
      cases hgrow
      exact ⟨c, x, hx, ht⟩
    | constraint hk' | formatter hk' | entityDefinition hk' | fragment hk' | manyToMany hk' =>
      cases hk.symm.trans hk'

namespace Repository

/-! ## What is stored -/

theorem fields_of_provided :
    ∀ e ∈ Grammar.standard.entities, e.isProvided = true → e.fields = [] := by
  decide

/-- What an alteration sets a property of is not provided from outside. -/
theorem Nested.exists_altered {r : Repository} (h : r.Nested) {c : Definition}
    (hc : c ∈ r.alterations) (hset : c.properties ≠ []) (hfits : Fits r.definitions c) :
    ∃ d ∈ r.definitions, d.key = c.key ∧ d.entity.isProvided = false := by
  obtain ⟨d, hd, hkey, hentity⟩ := hfits
  refine ⟨d, hd, hkey, ?_⟩
  have hnested := h.queued c hc
  have hsame : c.entity = d.entity := by
    have hfound := (h.stored d hd).entity
    rw [hentity, hnested.entity] at hfound
    exact Option.some.inj hfound
  by_contra hprovided
  rw [Bool.not_eq_false, ← hsame] at hprovided
  -- An entity that is provided declares nothing that could be set.
  have hnone := fields_of_provided _ (mem_of_get? hnested.entity) hprovided
  obtain ⟨p, hp⟩ := List.exists_mem_of_ne_nil _ hset
  have hfield := hnested.own.property p hp
  rw [Entity.hasField, hnone] at hfield
  cases hfield

/-- What an alteration sets a property of is among the definitions that are solved. -/
theorem Nested.mem_keys_of_solve {r : Repository} (h : r.Nested)
    (hd : (Definition.keys r.definitions).Nodup) {prior : Notebook} {ds : List Definition}
    (hds : r.solve prior = .ok ds) {c : Definition} (hc : c ∈ r.alterations)
    (hset : c.properties ≠ []) : c.key ∈ Definition.keys ds := by
  obtain ⟨hfits, -⟩ := (solve_eq_ok hd).1 hds
  obtain ⟨d, hm, hkey, hprovided⟩ := h.exists_altered hc hset (hfits c hc)
  refine (keys_perm_of_solve hd hds).mem_iff.2 (hkey ▸ List.mem_map_of_mem ?_)
  exact List.mem_filter.2 ⟨hm, by simp [hprovided]⟩

/-- With an entity definition or fragment its implicit domain is stored. -/
theorem Reachable.implicitDomain_mem {r : Repository} (h : r.Reachable .standard) {d : Definition}
    (hd : d ∈ r.definitions) (hprovided : d.entity.isProvided = false)
    (hk : d.kind? = some .entityDefinition ∨ d.kind? = some .fragment) :
    Dialect.implicitDomain d ∈ r.definitions := by
  obtain ⟨steps, rfl⟩ := h
  rcases mem_definitions_filled hd with hstart | ⟨a, -, hclosure, hall⟩
  · rw [isProvided_of_mem_start d hstart] at hprovided
    cases hprovided
  · rcases Dialect.mem_closure_standard.1 hclosure with rfl | himplied
    · exact hall _ (Dialect.mem_closure_standard.2 (.inr (Dialect.mem_impliedDomains.2 ⟨hk, rfl⟩)))
    · -- A domain is neither.
      obtain ⟨-, rfl⟩ := Dialect.mem_impliedDomains.1 himplied
      rcases hk with hk | hk <;> cases hk

end Repository

/-! ## Chains of projects -/

/-- The entity definition has its implicit domain in the notebook: it ranges over the type that the
alterations have set last, or else over the entity definition itself, and this type is there. -/
def Notebook.HasImplicitDomain (n : Notebook) (changes : List Definition) (name : String) : Prop :=
  ∃ d type, n.get? (Domain.implicitName name) = some (.domain d) ∧ d.scope = .dataObject type ∧
    (Definition.typesGiven changes (Domain.implicitName name)).getLast?.getD (.text name) =
      .text type ∧ n.Has type .entityDefinition

namespace Notebook.HasImplicitDomain

variable {n : Notebook} {changes more : List Definition} {name : String}

/-- Alterations behind that set no type do not count. -/
theorem append_right (h : n.HasImplicitDomain changes name)
    (hmore : Definition.typesGiven more (Domain.implicitName name) = []) :
    n.HasImplicitDomain (changes ++ more) name := by
  rwa [HasImplicitDomain, Definition.typesGiven_append, hmore, List.append_nil]

/-- Alterations before that set no type do not count. -/
theorem append_left (h : n.HasImplicitDomain more name)
    (hchanges : Definition.typesGiven changes (Domain.implicitName name) = []) :
    n.HasImplicitDomain (changes ++ more) name := by
  rwa [HasImplicitDomain, Definition.typesGiven_append, hchanges, List.nil_append]

end Notebook.HasImplicitDomain

theorem Definition.kind?_of_sketchKind? {d : Definition}
    (h : d.sketchKind? = some .entityDefinition) :
    d.kind? = some .entityDefinition ∨ d.kind? = some .fragment := by
  obtain ⟨k, hk, hsketch⟩ := Option.bind_eq_some_iff.1 h
  cases k <;> cases hsketch
  · exact .inl hk
  · exact .inr hk

namespace Notebook.Continues

variable {prior n : Notebook} {keys : List String} {ds : List Definition}

theorem has (h : prior.Continues n keys ds) {name : String} {kind : SketchKind}
    (hname : prior.Has name kind) : n.Has name kind := by
  obtain ⟨s, hs, hkind⟩ := hname
  exact ⟨s, h.prior name s hs, hkind⟩

theorem not_mem_prior (h : prior.Continues n keys ds) {key : String} (hkey : key ∈ keys) :
    key ∉ prior.names := by
  intro hprior
  have hnodup := h.nodup
  rw [h.names] at hnodup
  exact (List.nodup_append.1 hnodup).2.2 key hprior key hkey rfl

/-- An entity definition is one of the prior notebook, or one of the definitions. -/
theorem entityDefinition_cases (h : prior.Continues n keys ds) {name : String}
    (hname : n.Has name .entityDefinition) :
    prior.Has name .entityDefinition ∨ ∃ d ∈ ds, d.key = name ∧
      (d.kind? = some .entityDefinition ∨ d.kind? = some .fragment) := by
  obtain ⟨t, ht, hkind⟩ := hname
  by_cases hprior : name ∈ prior.names
  · obtain ⟨s, hs, -⟩ := exists_named hprior
    obtain rfl : s = t := Option.some.inj ((h.prior name s hs).symm.trans ht)
    exact .inl ⟨s, hs, hkind⟩
  · have hnames : name ∈ n.names := mem_names_of_get? ht
    rw [h.names] at hnames
    have hkeys := (List.mem_append.1 hnames).resolve_left hprior
    obtain ⟨d, hd, hkey⟩ := List.mem_map.1 (h.keys.mem_iff.1 hkeys)
    change d.key = name at hkey
    subst hkey
    obtain ⟨kind, hsketch, t', ht', rfl⟩ := h.kinds d hd
    obtain rfl : t = t' := Option.some.inj (ht.symm.trans ht')
    exact .inr ⟨d, hd, rfl, Definition.kind?_of_sketchKind? (hkind ▸ hsketch)⟩

end Notebook.Continues

namespace Project

/-- Projects of the standard dialect, into each of which some texts have been loaded, whether all of
them could be read or not, and which have been compiled one on the result of the other, the first one
on the empty notebook. -/
inductive Chain : List Project → Notebook → Prop
  | empty : Chain [] .empty
  | compile {ps : List Project} {p : Project} {prior n : Notebook} (h : Chain ps prior)
    (texts : List (String × String))
    (hload : p.repository = (Repository.start .standard).loadEach texts)
    (hcompile : p.compile prior = .ok n) : Chain (ps ++ [p]) n

/-- All alterations that have been queued in some projects, in order. -/
def alterations (ps : List Project) : List Definition := ps.flatMap fun p => p.repository.alterations

/-- What a chain keeps: each key for which something was set is a name, and entity definitions have
their implicit domains. -/
structure Kept (changes : List Definition) (n : Notebook) : Prop where
  altered : ∀ c ∈ changes, c.properties ≠ [] → c.key ∈ n.names
  domains : ∀ name, n.Has name .entityDefinition → n.HasImplicitDomain changes name

variable {p : Project} {prior n : Notebook} {texts : List (String × String)}

/-- An entity definition or fragment that is compiled has its implicit domain in the result. -/
theorem hasImplicitDomain_of_compile (hp : p.repository.Reachable .standard)
    (hcompile : p.compile prior = .ok n) {d : Definition} (hd : d ∈ p.repository.definitions)
    (hprovided : d.entity.isProvided = false)
    (hk : d.kind? = some .entityDefinition ∨ d.kind? = some .fragment) :
    n.HasImplicitDomain p.repository.alterations d.key := by
  obtain ⟨ds, b, hds, hrun, hfreeze⟩ := exists_run_of_compile hcompile
  obtain ⟨rfl, hdangling⟩ := Workbench.eq_preview_of_freeze hfreeze
  have himplicit := hp.implicitDomain_mem hd hprovided hk
  have hmem := (Repository.perm_of_solve hp.nodup_keys hds).2.mem_iff.2
    (Repository.mem_constructed.2 ⟨_, himplicit, rfl, rfl⟩)
  have hupdated := Definition.updatedBy_foldl_merge
    (p.repository.alterations.filter (·.key = (Dialect.implicitDomain d).key))
    (Dialect.implicitDomain d)
  rw [← Repository.amended_eq_foldl] at hupdated
  have hkind : (Repository.amended p.repository.alterations (Dialect.implicitDomain d)).kind? =
      some .domain := by
    rw [Definition.kind?, hupdated.entity]
    rfl
  obtain ⟨c, x, hx, hget⟩ := hrun.exists_domain hmem hkind
  rw [hupdated.key] at hget
  obtain ⟨type, htype, hscope⟩ := Definition.scope_of_implicitDomain hupdated hx
  refine ⟨x, type, hget, hscope, htype, ?_⟩
  have hranges : (Sketch.domain x).RangesOver type := ⟨x, rfl, by rw [Domain.definitionName?, hscope]⟩
  exact has_of_danglingDomains hdangling (Notebook.get?_eq_some_iff.1 hget).1 hranges

/-- Compiling one more project keeps implicit domains, and adds those of its definitions. -/
theorem Kept.compile {changes : List Definition} (h : Kept changes prior)
    (hload : p.repository = (Repository.start .standard).loadEach texts)
    (hcompile : p.compile prior = .ok n) : Kept (changes ++ p.repository.alterations) n := by
  obtain ⟨steps, hgrammar, hsteps⟩ := Repository.exists_filled_of_loadEach .standard texts
  rw [← hload] at hsteps
  have hp : p.repository.Reachable .standard := ⟨steps, hsteps⟩
  have hdata : p.repository.ProvidesDataTypes :=
    hsteps ▸ Repository.providesDataTypes_filled hgrammar
  have hnested : p.repository.Nested := hload ▸ Repository.nested_start.loadEach texts
  obtain ⟨ds, hds, hcontinues⟩ := continues_of_providesDataTypes hp hdata hcompile
  have haltered : ∀ c ∈ p.repository.alterations, c.properties ≠ [] →
      c.key ∈ Definition.keys ds :=
    fun c hc hset => hnested.mem_keys_of_solve hp.nodup_keys hds hc hset
  refine ⟨?_, ?_⟩
  · intro c hc hset
    rw [hcontinues.names]
    rcases List.mem_append.1 hc with hbefore | hnew
    · exact List.mem_append_left _ (h.altered c hbefore hset)
    · exact List.mem_append_right _ (haltered c hnew hset)
  · intro name hname
    rcases hcontinues.entityDefinition_cases hname with hprior | ⟨d, hd, rfl, hk⟩
    · obtain ⟨d, type, hget, hscope, htype, hhas⟩ := h.domains name hprior
      have hkept : n.HasImplicitDomain changes name :=
        ⟨d, type, hcontinues.prior _ _ hget, hscope, htype, hcontinues.has hhas⟩
      -- What is altered now is no name of the prior notebook.
      exact hkept.append_right (Definition.typesGiven_eq_nil fun c hc hset hkey =>
        hcontinues.not_mem_prior (haltered c hc hset) (hkey ▸ mem_names_of_get? hget))
    · obtain ⟨hstored, hprovided⟩ := List.mem_filter.1 hd
      rw [Bool.not_eq_true'] at hprovided
      have himplicit := hp.implicitDomain_mem hstored hprovided hk
      have hkey : Domain.implicitName d.key ∈ Definition.keys ds :=
        hcontinues.keys.mem_iff.2 (List.mem_map_of_mem (List.mem_filter.2 ⟨himplicit, rfl⟩))
      -- What was altered before is a name of the prior notebook.
      exact (hasImplicitDomain_of_compile hp hcompile hstored hprovided hk).append_left
        (Definition.typesGiven_eq_nil fun c hc hset hc' =>
          hcontinues.not_mem_prior hkey (hc' ▸ h.altered c hc hset))

theorem Chain.kept {ps : List Project} (h : Chain ps n) : Kept (alterations ps) n := by
  induction h with
  | empty =>
    refine ⟨fun c hc => absurd hc List.not_mem_nil, ?_⟩
    rintro name ⟨s, hs, -⟩
    cases hs
  | compile _ texts hload hcompile ih =>
    rw [alterations, List.flatMap_append, List.flatMap_singleton]
    exact ih.compile hload hcompile

/-- **Every entity definition has its implicit domain.** In a notebook that a chain of projects has
led to, the domain `DoX` of an entity definition or fragment `X` is there, and it ranges over `X`, or
over the type that the alterations of the domain have set last. This type is there as well. -/
theorem hasImplicitDomain_of_chain {ps : List Project} (h : Chain ps n) {name : String}
    {e : EntityDefinition} (he : n.entityDefinition name = .ok e) :
    n.HasImplicitDomain (alterations ps) name :=
  h.kept.domains name (Notebook.has_entityDefinition_iff.2 ⟨e, he⟩)

open Source

/-- Racks and trays. The type of the domain of trays is set twice. -/
def racks : List (String × String) :=
  [("racks", ofPieces [
    block "alter Domain" "DoTray" [text "TYPE" "Tray"],
    domain "DoCode" "Long",
    definition "Rack" [identifier "code" "Code" "DoCode"],
    definition "Tray" [identifier "code" "Code" "DoCode"],
    block "alter Domain" "DoTray" [text "TYPE" "Rack", text "storeType" "BLOB"]])]

/-- A view of racks. The domain of racks themselves is not altered. -/
def rackViews : List (String × String) :=
  [("views", ofPieces [
    block "create Fragment" "RackView" [link "from" "Rack", block "alias" "code" []],
    block "alter Domain" "DoRackView" [link "dataType" "[]"]])]

/-- The domain of trays ranges over racks, and a view of racks has a domain of its own. -/
theorem hasImplicitDomain_of_chain_racks :
    ∃ p q n, Chain [p, q] n ∧
      n.names = ["DoCode", "Rack", "DoRack", "Tray", "DoTray", "RackView", "DoRackView"] ∧
      Definition.typesGiven (alterations [p, q]) "DoTray" = [.text "Tray", .text "Rack"] ∧
      n.HasImplicitDomain (alterations [p, q]) "Tray" ∧
      n.HasImplicitDomain (alterations [p, q]) "RackView" := by
  have hracks : (start .standard).loadAll racks = _ := loadAll_ofList _ [(_, _)]
  have hviews : (start .standard).loadAll rackViews = _ := loadAll_ofList _ [(_, _)]
  have hbuild : (do
      let p ← (start .standard).loadAll racks
      let q ← (start .standard).loadAll rackViews
      let prior ← p.compile .empty
      let n ← q.compile prior
      let tray ← (n.entityDefinition "Tray").mapError .notebook
      let view ← (n.entityDefinition "RackView").mapError .notebook
      return (n.names, Definition.typesGiven (alterations [p, q]) "DoTray") :
        Except ModelError _) =
      .ok (["DoCode", "Rack", "DoRack", "Tray", "DoTray", "RackView", "DoRackView"],
        [.text "Tray", .text "Rack"]) := by
    simp only [hracks, hviews]
    decide +kernel
  simp only [bind_eq_ok, pure_eq_ok, mapError_eq_ok, Prod.mk.injEq] at hbuild
  obtain ⟨p, hp, q, hq, prior, hprior, n, hn, tray, htray, view, hview, hnames, htypes⟩ := hbuild
  have hchain : Chain ([] ++ [p] ++ [q]) n :=
    (Chain.empty.compile racks (repository_of_loadAll hp) hprior).compile rackViews
      (repository_of_loadAll hq) hn
  exact ⟨p, q, n, hchain, hnames, htypes, hasImplicitDomain_of_chain hchain htray,
    hasImplicitDomain_of_chain hchain hview⟩

end Project

end Metamodel
