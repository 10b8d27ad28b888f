import Metamodel.Proofs.Agreement
import Metamodel.Proofs.Loading

set_option autoImplicit false

/-! # Building in one go or module by module

Sources can be compiled all at once, or some first and the others on the notebook that gives. Both
ways lead to notebooks that agree (`agrees_of_modular`): names, and the sketch under each name, do
not depend on how the sources are cut into modules, only the order of foreign keys may.

The two ways solve their definitions in different orders, and what one of them reads from a finished
notebook is still a draft in the other. But they are two runs, and runs through the same definitions
agree. That the definitions are the same is a fact about repositories: what sources add does not
depend on what has been loaded before, and no alteration reaches a definition of another module
(`constructed_append`). -/

namespace Metamodel

namespace Repository

variable {r₀ r r' r'' : Repository} {ds ds' changes changes' : List Definition}

/-- What stands in the queue for other definitions does not matter. -/
theorem map_amended_append_left (h : ∀ d ∈ ds, ∀ c ∈ changes', c.key ≠ d.key) :
    ds.map (amended (changes ++ changes')) = ds.map (amended changes) := by
  refine List.map_congr_left fun d hd => ?_
  rw [amended_append, amended_of_forall_ne]
  rw [key_amended]
  exact h d hd

theorem map_amended_append_right (h : ∀ d ∈ ds, ∀ c ∈ changes, c.key ≠ d.key) :
    ds.map (amended (changes ++ changes')) = ds.map (amended changes') := by
  refine List.map_congr_left fun d hd => ?_
  rw [amended_append, amended_of_forall_ne (h d hd)]

/-- On a repository of provided definitions, what is constructed is what was added. -/
theorem constructed_of_extends (hroots : ∀ d ∈ r₀.definitions, d.entity.isProvided = true)
    (hqueue : r₀.alterations = []) (h : r₀.Extends r ds changes) :
    r.constructed = (ds.map (amended changes)).filter (!·.entity.isProvided) := by
  have hdropped : (r₀.definitions.map (amended changes)).filter (!·.entity.isProvided) = [] := by
    rw [List.filter_eq_nil_iff]
    intro d hd
    obtain ⟨e, he, rfl⟩ := List.mem_map.1 hd
    simp [hroots e he]
  rw [constructed, h.definitions, h.alterations, hqueue, List.nil_append, List.map_append,
    List.filter_append, hdropped, List.nil_append]

/-- What two modules construct together is what each constructs alone, as each alters definitions
of its own only. -/
theorem constructed_append (hroots : ∀ d ∈ r₀.definitions, d.entity.isProvided = true)
    (hqueue : r₀.alterations = []) (h : r₀.Extends r ds changes)
    (h' : r₀.Extends r' ds' changes') (h'' : r.Extends r'' ds' changes')
    (hd : (Definition.keys r''.definitions).Nodup)
    (hown : ∀ c ∈ r.alterations, c.key ∈ Definition.keys r.definitions)
    (hown' : ∀ c ∈ r'.alterations, c.key ∈ Definition.keys r'.definitions) :
    r''.constructed = r.constructed ++ r'.constructed := by
  rw [h.alterations, hqueue, List.nil_append, h.definitions] at hown
  rw [h'.alterations, hqueue, List.nil_append, h'.definitions] at hown'
  rw [h''.definitions, h.definitions, Definition.keys_append] at hd
  obtain ⟨hfirst, -, hapart⟩ := List.nodup_append.1 hd
  -- Keys of the second module are new to the first, those of the first new to the roots.
  have hleft : ∀ d ∈ ds, ∀ c ∈ changes', c.key ≠ d.key := by
    intro d hds c hc heq
    have hkey := hown' c hc
    rw [heq, Definition.keys_append] at hkey
    rw [Definition.keys_append] at hfirst hapart
    have hmem : d.key ∈ Definition.keys ds := List.mem_map_of_mem hds
    rcases List.mem_append.1 hkey with hroot | hother
    · exact (List.nodup_append.1 hfirst).2.2 _ hroot _ hmem rfl
    · exact hapart _ (List.mem_append_right _ hmem) _ hother rfl
  have hright : ∀ d ∈ ds', ∀ c ∈ changes, c.key ≠ d.key :=
    fun d hds c hc => hapart _ (hown c hc) _ (List.mem_map_of_mem hds)
  rw [constructed_of_extends hroots hqueue (h.trans h''), constructed_of_extends hroots hqueue h,
    constructed_of_extends hroots hqueue h', List.map_append, List.filter_append,
    map_amended_append_left hleft, map_amended_append_right hright]

end Repository

namespace Project

/-- The notebook that some sources, each given by its name and text, make of a prior one. -/
def compileTexts (sources : List (String × String)) (prior : Notebook) :
    Except ModelError Notebook := do
  let p ← (start .standard).loadAll sources
  p.compile prior

/-- Two modules that are loaded one after the other give what each gives alone. -/
theorem exists_constructed_append {a b : List (String × String)} {p q pq : Project}
    (hp : (start .standard).loadAll a = .ok p) (hq : (start .standard).loadAll b = .ok q)
    (hpq : (start .standard).loadAll (a ++ b) = .ok pq)
    (hown : ∀ c ∈ p.repository.alterations, c.key ∈ Definition.keys p.repository.definitions)
    (hown' : ∀ c ∈ q.repository.alterations, c.key ∈ Definition.keys q.repository.definitions) :
    pq.repository.constructed = p.repository.constructed ++ q.repository.constructed := by
  rw [loadAll_append, bind_eq_ok] at hpq
  obtain ⟨p', hp', hpq⟩ := hpq
  obtain rfl : p = p' := Except.ok.inj (hp.symm.trans hp')
  obtain ⟨ds, changes, he, -⟩ := loadAll_extends rfl hp hp
  obtain ⟨ds', changes', he', he''⟩ := loadAll_extends he.dialect.symm hq hpq
  exact Repository.constructed_append Repository.isProvided_of_mem_start rfl he he' he''
    (he''.nodup (he.nodup (Repository.nodup_keys_start _))) hown hown'

theorem nodup_keys_of_loadAll {sources : List (String × String)} {p : Project}
    (h : (start .standard).loadAll sources = .ok p) :
    (Definition.keys p.repository.definitions).Nodup := by
  obtain ⟨ds, changes, he, -⟩ := loadAll_extends rfl h h
  exact he.nodup (Repository.nodup_keys_start _)

/-- Compiling some sources, and then others on the result, agrees with compiling them all. -/
theorem agrees_of_modular {a b : List (String × String)} {prior n₁ n₂ n : Notebook}
    (ha : compileTexts a prior = .ok n₁) (hb : compileTexts b n₁ = .ok n₂)
    (hab : compileTexts (a ++ b) prior = .ok n) : n.Agrees n₂ := by
  simp only [compileTexts, bind_eq_ok] at ha hb hab
  obtain ⟨p, hp, ha⟩ := ha
  obtain ⟨q, hq, hb⟩ := hb
  obtain ⟨pq, hpq, hab⟩ := hab
  obtain ⟨ds, w, hds, hrun, hw⟩ := exists_run_of_compile ha
  obtain ⟨ds', w', hds', hrun', hw'⟩ := exists_run_of_compile hb
  obtain ⟨es, v, hes, hrunAll, hv⟩ := exists_run_of_compile hab
  obtain ⟨hown, hperm⟩ := Repository.perm_of_solve (nodup_keys_of_loadAll hp) hds
  obtain ⟨hown', hperm'⟩ := Repository.perm_of_solve (nodup_keys_of_loadAll hq) hds'
  obtain ⟨-, hpermAll⟩ := Repository.perm_of_solve (nodup_keys_of_loadAll hpq) hes
  rw [exists_constructed_append hp hq hpq hown hown'] at hpermAll
  -- Freezing between the modules is a step of a run, so the modular build is one run as well.
  have hmodular : Run prior (ds ++ ds') w' := (hrun.freeze hw).trans hrun'
  have hsame : es.Perm (ds ++ ds') := hpermAll.trans (hperm.append hperm').symm
  rw [(Workbench.eq_preview_of_freeze hv).1, (Workbench.eq_preview_of_freeze hw').1]
  exact hrunAll.agrees hmodular hsame

open Source

/-- A module of places. The domain of the last definition comes after it. -/
def places : List (String × String) :=
  [("places", ofPieces [
    definition "City" [identifier "cityId" "Id" "DoCode"],
    domain "DoText" "String",
    definition "Country" [identifier "countryId" "Id" "DoText"]]),
   ("codes", ofPieces [domain "DoCode" "Long"])]

/-- A module of people, whose definitions refer to places. -/
def people : List (String × String) :=
  [("people", ofPieces [
    definition "Person" [identifier "personId" "Id" "DoCode"],
    association "Lives" "Person" "City" [text "type" "*>1"],
    block "create Fragment" "Town" [
      link "from" "City", block "alias" "cityId" [text "label" "Town"]]]),
   ("births", ofPieces [association "Born" "Person" "Country" [text "type" "*>?"]])]

/-- Built in one go, a person refers to the country first and then to the city; built module by
module, the other way round. -/
theorem agrees_of_modular_people :
    ∃ n₁ n₂ n, compileTexts places .empty = .ok n₁ ∧ compileTexts people n₁ = .ok n₂ ∧
      compileTexts (places ++ people) .empty = .ok n ∧ n.same n₂ = false ∧ n.Agrees n₂ := by
  have hplaces : (start .standard).loadAll places = _ := loadAll_ofList _ [(_, _), (_, _)]
  have hpeople : (start .standard).loadAll people = _ := loadAll_ofList _ [(_, _), (_, _)]
  have hboth : (start .standard).loadAll (places ++ people) = _ :=
    loadAll_ofList _ [(_, _), (_, _), (_, _), (_, _)]
  have hbuild : (do
      let n₁ ← compileTexts places .empty
      let n₂ ← compileTexts people n₁
      let n ← compileTexts (places ++ people) .empty
      return n.same n₂ : Except ModelError Bool) = .ok false := by
    simp only [compileTexts, hplaces, hpeople, hboth]
    decide +kernel
  simp only [bind_eq_ok, pure_eq_ok] at hbuild
  obtain ⟨n₁, ha, n₂, hb, n, hab, hsame⟩ := hbuild
  exact ⟨n₁, n₂, n, ha, hb, hab, hsame, agrees_of_modular ha hb hab⟩

end Project

end Metamodel
