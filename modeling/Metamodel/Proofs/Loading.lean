import Metamodel.Project
import Metamodel.Proofs.Solving

set_option autoImplicit false

/-! # What loading adds

Loading a text adds definitions and alterations behind those a repository has. Which ones depends on
the dialect alone: two repositories of one dialect that both take a text on get the same from it
(`load_extends`), and so do projects from lists of sources (`loadAll_extends`). Keys stay distinct
on the way, from the roots of the grammar on (`nodup_keys_start`).

Loading sources is loading one after the other (`loadAll_append`). A text is read character by
character, which `loadAll_ofList` says for texts that are given so. `Source` spells entries and
statements, from which such texts are put together. -/

namespace Metamodel

namespace Repository

/-! ## Distinct keys -/

theorem firstTaken_eq_none_iff {taken : List String} {ds : List Definition} :
    firstTaken taken ds = none ↔
      (Definition.keys ds).Nodup ∧ ∀ key ∈ Definition.keys ds, key ∉ taken := by
  induction ds generalizing taken with
  | nil => simp [firstTaken, Named.names]
  | cons d ds ih =>
    by_cases hd : d.key ∈ taken
    · simp [firstTaken, hd, Named.names, Named.nameOf]
    · simp only [firstTaken, if_neg hd, ih, Named.names, List.map_cons, List.nodup_cons,
        List.mem_cons, not_or, Named.nameOf]
      constructor
      · rintro ⟨hnodup, hfree⟩
        refine ⟨⟨fun hm => (hfree _ hm).1 rfl, hnodup⟩, ?_⟩
        rintro key (rfl | hm)
        · exact hd
        · exact (hfree key hm).2
      · rintro ⟨⟨hm, hnodup⟩, hfree⟩
        exact ⟨hnodup, fun key hk => ⟨fun h => hm (h ▸ hk), hfree key (.inr hk)⟩⟩

/-- Of roots with one key only the last counts, so keys are distinct from the start. -/
theorem nodup_keys_start (dialect : Dialect) :
    (Definition.keys (start dialect).definitions).Nodup := by
  have hput : ∀ (roots ds : List Definition), (Definition.keys ds).Nodup →
      (Definition.keys (roots.foldl (fun ds d => Named.put d ds) ds)).Nodup := by
    intro roots
    induction roots with
    | nil => exact fun _ h => h
    | cons d roots ih => exact fun ds h => ih _ (Named.nodup_names_put d h)
  exact hput _ [] List.nodup_nil

/-- The roots of the standard grammar are provided. -/
theorem isProvided_of_mem_start :
    ∀ d ∈ (start .standard).definitions, d.entity.isProvided = true := by
  decide

/-! ## What is added -/

/-- The second repository has more definitions and alterations than the first, behind those of the
first, and keys are distinct as before. -/
structure Extends (r r' : Repository) (ds changes : List Definition) : Prop where
  dialect : r'.dialect = r.dialect
  definitions : r'.definitions = r.definitions ++ ds
  alterations : r'.alterations = r.alterations ++ changes
  nodup : (Definition.keys r.definitions).Nodup → (Definition.keys r'.definitions).Nodup

/-- A repository with the same definitions and a longer queue. -/
theorem Extends.of_eq {r r' : Repository} {changes : List Definition}
    (hdialect : r'.dialect = r.dialect) (hdefinitions : r'.definitions = r.definitions)
    (hqueue : r'.alterations = r.alterations ++ changes) : r.Extends r' [] changes where
  dialect := hdialect
  definitions := by rw [hdefinitions, List.append_nil]
  alterations := hqueue
  nodup hd := by rwa [hdefinitions]

theorem Extends.refl (r : Repository) : r.Extends r [] [] :=
  .of_eq rfl rfl (List.append_nil _).symm

theorem Extends.trans {r r' r'' : Repository} {ds ds' changes changes' : List Definition}
    (h : r.Extends r' ds changes) (h' : r'.Extends r'' ds' changes') :
    r.Extends r'' (ds ++ ds') (changes ++ changes') where
  dialect := h'.dialect.trans h.dialect
  definitions := by rw [h'.definitions, h.definitions, List.append_assoc]
  alterations := by rw [h'.alterations, h.alterations, List.append_assoc]
  nodup hd := h'.nodup (h.nodup hd)

theorem extends_of_add {r r' : Repository} {d : Definition} (h : r.add d = .ok r') :
    r.Extends r' (r.dialect.closure d) [] := by
  unfold add at h
  dsimp only at h
  split at h
  · cases h
  · next hfree =>
    cases h
    obtain ⟨hnodup, hfree⟩ := firstTaken_eq_none_iff.1 hfree
    refine ⟨rfl, rfl, (List.append_nil _).symm, fun hd => ?_⟩
    rw [Definition.keys_append, List.nodup_append]
    refine ⟨hd, hnodup, ?_⟩
    rintro key hk _ hk' rfl
    exact hfree key hk' hk

/-! ## Statements -/

theorem withField_eq_ok {source : String} {d : Definition} {field : Located String} {u : Unit} :
    withField source d field = .ok u ↔ d.entity.hasField field.value = true := by
  unfold withField
  cases d.entity.hasField field.value <;> simp

theorem entityAt_eq_ok {r : Repository} {source name : String} {span : Span} {e : Entity} :
    r.entityAt source name span = .ok e ↔ r.entity? name = some e := by
  unfold entityAt
  cases r.entity? name <;> simp

section Statements

variable {r₁ r₂ : Repository}

theorem entityAt_congr (hd : r₁.dialect = r₂.dialect) (source name : String) (span : Span) :
    r₁.entityAt source name span = r₂.entityAt source name span := by
  rw [entityAt, entityAt, entity?, entity?, hd]

mutual

/-- An entry is read by the grammar alone. -/
theorem addEntry_congr (hd : r₁.dialect = r₂.dialect) (source : String) (d : Definition) :
    ∀ e : Entry, r₁.addEntry source d e = r₂.addEntry source d e
  | .property field value => by rw [addEntry, addEntry]
  | .links field targets => by rw [addEntry, addEntry]
  | .child head name body => by
    rw [addEntry, addEntry]
    split
    · simp only [entityAt_congr hd, addEntries_congr hd source _ body]
    · rfl

theorem addEntries_congr (hd : r₁.dialect = r₂.dialect) (source : String) (d : Definition) :
    ∀ es : List Entry, r₁.addEntries source d es = r₂.addEntries source d es
  | [] => by rw [addEntries, addEntries]
  | e :: es => by
    rw [addEntries, addEntries, addEntry_congr hd source d e]
    simp only [addEntries_congr hd source _ es]

end

/-- A statement describes the same definition in any repository of the dialect. -/
theorem definitionOf_congr (hd : r₁.dialect = r₂.dialect) (source : String) (s : Statement) :
    r₁.definitionOf source s = r₂.definitionOf source s := by
  rw [definitionOf, definitionOf]
  simp only [entityAt_congr hd, addEntries_congr hd]

variable {r₁' r₂' : Repository} {source : String}

theorem applyStatement_extends (hd : r₁.dialect = r₂.dialect) {s : Statement}
    (h₁ : r₁.applyStatement source s = .ok r₁') (h₂ : r₂.applyStatement source s = .ok r₂') :
    ∃ ds changes, r₁.Extends r₁' ds changes ∧ r₂.Extends r₂' ds changes := by
  simp only [applyStatement, bind_eq_ok, mapError_eq_ok] at h₁ h₂
  obtain ⟨d, hd₁, h₁⟩ := h₁
  obtain ⟨d', hd₂, h₂⟩ := h₂
  rw [definitionOf_congr hd, hd₂] at hd₁
  cases hd₁
  cases hv : s.verb with
  | create =>
    simp only [hv, mapError_eq_ok] at h₁ h₂
    exact ⟨_, _, extends_of_add h₁, hd ▸ extends_of_add h₂⟩
  | alter =>
    simp only [hv, pure_eq_ok] at h₁ h₂
    subst h₁ h₂
    exact ⟨[], [d], .of_eq rfl rfl rfl, .of_eq rfl rfl rfl⟩
  | declare =>
    simp only [hv, pure_eq_ok] at h₁ h₂
    subst h₁ h₂
    -- Declared names are no part of what a repository solves.
    exact ⟨[], [], .of_eq rfl rfl (List.append_nil _).symm,
      .of_eq rfl rfl (List.append_nil _).symm⟩

theorem applyAll_extends (hd : r₁.dialect = r₂.dialect) {ss : List Statement}
    (h₁ : applyAll source r₁ ss = (r₁', .ok ())) (h₂ : applyAll source r₂ ss = (r₂', .ok ())) :
    ∃ ds changes, r₁.Extends r₁' ds changes ∧ r₂.Extends r₂' ds changes := by
  induction ss generalizing r₁ r₂ with
  | nil =>
    cases h₁
    cases h₂
    exact ⟨[], [], .refl _, .refl _⟩
  | cons s ss ih =>
    rw [applyAll] at h₁ h₂
    -- The first statement adds the same to both, which keeps them of one dialect.
    split at h₁
    · next q₁ hq₁ =>
      split at h₂
      · next q₂ hq₂ =>
        obtain ⟨ds, changes, he₁, he₂⟩ := applyStatement_extends hd hq₁ hq₂
        have hq : q₁.dialect = q₂.dialect := by rw [he₁.dialect, he₂.dialect, hd]
        obtain ⟨ds', changes', he₁', he₂'⟩ := ih hq h₁ h₂
        exact ⟨_, _, he₁.trans he₁', he₂.trans he₂'⟩
      · cases h₂
    · cases h₁

theorem load_extends (hd : r₁.dialect = r₂.dialect) {text : String}
    (h₁ : r₁.load source text = (r₁', .ok ())) (h₂ : r₂.load source text = (r₂', .ok ())) :
    ∃ ds changes, r₁.Extends r₁' ds changes ∧ r₂.Extends r₂' ds changes := by
  unfold load at h₁ h₂
  cases hparse : Statement.parse text with
  | error e =>
    simp only [hparse] at h₁
    cases h₁
  | ok ss =>
    simp only [hparse] at h₁ h₂
    exact applyAll_extends hd h₁ h₂

end Statements

end Repository

/-! ## Sources -/

namespace Project

theorem load_eq_ok {p q : Project} {source text : String}
    (h : p.load source text = (q, .ok ())) :
    p.repository.load source text = (q.repository, .ok ()) := by
  unfold load at h
  split at h
  · next r hr =>
    cases h
    exact hr
  · cases h

/-- Projects of one dialect get the same from sources that both take on. -/
theorem loadAll_extends {p₁ p₂ q₁ q₂ : Project}
    (hd : p₁.repository.dialect = p₂.repository.dialect) {sources : List (String × String)}
    (h₁ : p₁.loadAll sources = .ok q₁) (h₂ : p₂.loadAll sources = .ok q₂) :
    ∃ ds changes, p₁.repository.Extends q₁.repository ds changes ∧
      p₂.repository.Extends q₂.repository ds changes := by
  induction sources generalizing p₁ p₂ with
  | nil =>
    cases h₁
    cases h₂
    exact ⟨[], [], .refl _, .refl _⟩
  | cons s sources ih =>
    obtain ⟨source, text⟩ := s
    simp only [loadAll] at h₁ h₂
    split at h₁
    · next r₁ hr₁ =>
      split at h₂
      · next r₂ hr₂ =>
        obtain ⟨ds, changes, he₁, he₂⟩ :=
          Repository.load_extends hd (load_eq_ok hr₁) (load_eq_ok hr₂)
        have hr : r₁.repository.dialect = r₂.repository.dialect := by
          rw [he₁.dialect, he₂.dialect, hd]
        obtain ⟨ds', changes', he₁', he₂'⟩ := ih hr h₁ h₂
        exact ⟨_, _, he₁.trans he₁', he₂.trans he₂'⟩
      · cases h₂
    · cases h₁

/-- Loading sources and then others is loading them all. -/
theorem loadAll_append (p : Project) (sources more : List (String × String)) :
    p.loadAll (sources ++ more) = p.loadAll sources >>= fun q => q.loadAll more := by
  induction sources generalizing p with
  | nil => rfl
  | cons s sources ih =>
    obtain ⟨source, text⟩ := s
    simp only [List.cons_append, loadAll]
    split
    · exact ih _
    · rfl

end Project

/-! ## Texts given by their characters -/

/-- The statements of a text, given by its characters. -/
def Statement.ofChars (text : List Char) : Except SyntaxError (List Statement) :=
  match tokensFrom 0 text with
  | .error e => .error (.lexical e)
  | .ok tokens => (Reader.start.run tokens).map Reader.statements

theorem Statement.parse_ofList (text : List Char) :
    parse (String.ofList text) = ofChars text := by
  rw [parse, tokenize, String.toList_ofList]
  rfl

/-- The project after loading some sources, the text of each given by its characters. -/
def Project.loadChars (p : Project) : List (String × List Char) → Except ModelError Project
  | [] => .ok p
  | (source, text) :: rest => match Statement.ofChars text with
    | .error e => .error (.source (.syntaxError source e))
    | .ok statements => match p.repository.applyAll source statements with
      | (r, .ok ()) => Project.loadChars ⟨r, p.sources ++ [source]⟩ rest
      | (_, .error e) => .error e

/-- Reading characters is reading the text they make up. -/
theorem Project.loadAll_ofList (p : Project) (sources : List (String × List Char)) :
    p.loadAll (sources.map fun s => (s.1, String.ofList s.2)) = p.loadChars sources := by
  induction sources generalizing p with
  | nil => rfl
  | cons s sources ih =>
    obtain ⟨source, text⟩ := s
    simp only [List.map_cons, loadAll, load, Repository.load, Statement.parse_ofList, loadChars]
    cases Statement.ofChars text with
    | error e => rfl
    | ok statements =>
      dsimp only
      cases h : p.repository.applyAll source statements with
      | mk r outcome =>
        cases outcome with
        | error e => rfl
        | ok u => exact ih _

/-! ## Texts put together from pieces -/

namespace Source

/-- The spelling of an entry that gives a field a text. -/
def text (field value : String) : List Char :=
  field.toList ++ [':', ' ', '"'] ++ value.toList ++ ['"', ';', ' ']

/-- The spelling of an entry that links a field to a key, or gives it anything else that is spelled
without quotes. -/
def link (field target : String) : List Char :=
  field.toList ++ [':', ' '] ++ target.toList ++ [';', ' ']

/-- The spelling of a statement or of a child: its head, its name and its entries in braces. -/
def block (head name : String) (entries : List (List Char)) : List Char :=
  head.toList ++ [' '] ++ name.toList ++ [' ', '\x7b', ' '] ++ entries.flatten ++ ['\x7d', '\n']

/-- The spelling of a statement that declares the name of a domain. -/
def declared (name : String) : List Char := "declare Domain ".toList ++ name.toList ++ [';', '\n']

/-- The spelling of a domain of a data type. -/
def domain (name type : String) : List Char := block "create Domain" name [link "dataType" type]

/-- The spelling of an entity definition. -/
def definition (name : String) (entries : List (List Char)) : List Char :=
  block "create DtDefinition" name entries

/-- The spelling of the identifier of an entity definition. -/
def identifier (name label domain : String) : List Char :=
  block "id" name [text "label" label, link "domain" domain]

/-- The spelling of an association between two definitions, with further entries. -/
def association (name a b : String) (more : List (List Char)) : List Char :=
  block "create Association" name (link "dtDefinitionA" a :: link "dtDefinitionB" b :: more)

/-- The text that consists of some pieces. -/
def ofPieces (pieces : List (List Char)) : String := String.ofList pieces.flatten

end Source

end Metamodel
