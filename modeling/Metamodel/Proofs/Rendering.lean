import Metamodel.Proofs.Spelling

set_option autoImplicit false

/-! # Definitions as model text

A definition can be written as model text if it fills the fields that its entity declares and its
names are identifiers (`Definition.Writable`). What is written is a derivation
(`Definition.derivation`): a package if there is one, and one statement, with the properties first,
then the links, always in brackets, then the children, each headed by its field. Any text that spells
the derivation will do.

Loading such a text adds the definition, or queues it (`Repository.load_of_isWritten`). The
definition is rebuilt entry by entry from an empty one. No field is filled twice, except that
children come one by one; so what is filled is new each time and goes to the end
(`Named.foldl_append`), and fields end up in the order in which they stand in the text. This is so
for the children too, by induction on their nesting (`Writable.addEntries_body`). -/

namespace Metamodel

/-! ## Filling field by field -/

namespace Named

variable {α β : Type}

theorem extend_of_not_mem {n : String} {vs : List β} {xs : List (String × List β)}
    (h : n ∉ names xs) : extend n vs xs = xs ++ [(n, vs)] := by
  induction xs with
  | nil => rfl
  | cons y ys ih =>
    obtain ⟨m, us⟩ := y
    simp only [names, List.map_cons, List.mem_cons, not_or] at h
    have hm : m ≠ n := Ne.symm h.1
    rw [extend, if_neg hm, ih h.2, List.cons_append]

theorem extend_extend (n : String) (us vs : List β) (xs : List (String × List β)) :
    extend n vs (extend n us xs) = extend n (us ++ vs) xs := by
  induction xs with
  | nil => simp [extend]
  | cons y ys ih =>
    obtain ⟨m, ws⟩ := y
    by_cases h : m = n
    · simp [extend, h]
    · simp [extend, h, ih]

/-- Adding values one by one is adding them all. -/
theorem foldl_extend_singleton (n : String) {vs : List β} (hvs : vs ≠ [])
    (xs : List (String × List β)) :
    vs.foldl (fun xs v => extend n [v] xs) xs = extend n vs xs := by
  induction vs generalizing xs with
  | nil => exact absurd rfl hvs
  | cons v vs ih =>
    rw [List.foldl_cons]
    by_cases hvs' : vs = []
    · rw [hvs', List.foldl_nil]
    · rw [ih hvs', extend_extend, List.singleton_append]

/-- If new names go to the end, then things with names of their own are kept in their order. -/
theorem foldl_append [Named α] {write : List α → α → List α}
    (hwrite : ∀ xs x, nameOf x ∉ names xs → write xs x = xs ++ [x]) {xs ys : List α}
    (h : (names (xs ++ ys)).Nodup) : ys.foldl write xs = xs ++ ys := by
  induction ys generalizing xs with
  | nil => rw [List.foldl_nil, List.append_nil]
  | cons y ys ih =>
    have hy : nameOf y ∉ names xs := by
      intro hmem
      rw [names, List.map_append, List.map_cons, List.nodup_append] at h
      exact h.2.2 _ hmem _ List.mem_cons_self rfl
    rw [List.append_cons] at h ⊢
    rw [List.foldl_cons, hwrite xs y hy, ih h]

end Named

/-! ## Writing -/

/-- Something in a text that has no places yet. -/
def unplaced {α : Type} (x : α) : Located α := ⟨x, ⟨0, 0⟩⟩

@[simp] theorem value_unplaced {α : Type} (x : α) : (unplaced x).value = x := rfl

/-- Keys with commas between them. -/
def KeyList.ofKeys? : List String → Option KeyList
  | [] => none
  | key :: keys => some ⟨unplaced key, keys.map fun k => (⟨0, 0⟩, unplaced k), none⟩

theorem KeyList.keys_ofKeys? (keys : List String) :
    (ofKeys? keys).elim [] KeyList.keys = keys.map unplaced := by
  cases keys <;> simp [ofKeys?, KeyList.keys]

namespace Definition

/-- The children with their fields, in order. -/
def nested (d : Definition) : List (String × Definition) :=
  d.children.flatMap fun e => e.2.map fun c => (e.1, c)

theorem mem_nested {d : Definition} {c : String × Definition} :
    c ∈ d.nested ↔ ∃ e ∈ d.children, e.1 = c.1 ∧ c.2 ∈ e.2 := by
  obtain ⟨field, c⟩ := c
  simp [nested, and_comm]

/-- The entries of a definition, as they are written. -/
def body (d : Definition) : List EntryTree :=
  d.properties.map (fun p => .assign (unplaced p.1) ⟨0, 0⟩ (.literal (unplaced p.2)) ⟨0, 0⟩) ++
    (d.links.map (fun l =>
      .assign (unplaced l.1) ⟨0, 0⟩ (.list ⟨0, 0⟩ (KeyList.ofKeys? l.2) ⟨0, 0⟩) ⟨0, 0⟩) ++
    d.children.flatMap fun e => e.2.map fun c =>
      .child (unplaced e.1) (unplaced c.key) ⟨0, 0⟩ c.body ⟨0, 0⟩ none)
termination_by sizeOf d
decreasing_by exact sizeOf_child ‹_› ‹_›

variable (verb : Verb) (hverb : verb ≠ .declare)

/-- A definition as it is written with a verb. -/
def derivation (d : Definition) : Derivation :=
  d.package.toList.map (fun p => .package ⟨0, 0⟩ (unplaced p) ⟨0, 0⟩) ++
    [.block verb hverb ⟨0, 0⟩ (unplaced d.entity.name) (unplaced d.key) ⟨0, 0⟩ d.body ⟨0, 0⟩ none]

/-- The text says what is written for a definition, in any layout. -/
def IsWritten (d : Definition) (text : String) : Prop :=
  Spells ((d.derivation verb hverb).tokens.map Token.lexeme) text.toList

/-- The names that a definition itself uses are identifiers. It fills the fields that its entity
declares, none of them twice in one role, and its children are of the entities of their fields and in
its package. -/
structure OwnWritable (grammar : Grammar) (d : Definition) : Prop where
  entity : grammar.entity? d.entity.name = some d.entity
  key : isIdentifier d.key = true
  package : ∀ p ∈ d.package, isIdentifier p = true
  property : ∀ p ∈ d.properties, isIdentifier p.1 = true ∧ d.entity.hasField p.1 = true
  link : ∀ l ∈ d.links, isIdentifier l.1 = true ∧ d.entity.hasField l.1 = true ∧
    ∀ target ∈ l.2, isIdentifier target = true
  child : ∀ e ∈ d.children, isIdentifier e.1 = true ∧ e.2 ≠ [] ∧
    ∃ field target, d.entity.field? e.1 = some field ∧ field.shape = .child target ∧
      ∀ c ∈ e.2, grammar.entity? target = some c.entity ∧ c.package = d.package
  nodup_properties : (Named.names d.properties).Nodup
  nodup_links : (Named.names d.links).Nodup
  nodup_children : (Named.names d.children).Nodup

/-- A definition that can be written as model text, and its children with it. -/
inductive Writable (grammar : Grammar) : Definition → Prop
  | intro {d : Definition} (own : d.OwnWritable grammar)
    (children : ∀ c ∈ d.nested, Writable grammar c.2) : Writable grammar d

variable {grammar : Grammar} {d : Definition}

theorem Writable.own (h : d.Writable grammar) : d.OwnWritable grammar := by
  cases h with
  | intro own _ => exact own

theorem writable_empty {entity : Entity} {key : String} {package : Option String}
    (hentity : grammar.entity? entity.name = some entity) (hkey : isIdentifier key = true)
    (hpackage : ∀ p ∈ package, isIdentifier p = true) :
    (empty entity key package).Writable grammar := by
  refine .intro ⟨hentity, hkey, hpackage, ?_, ?_, ?_, ?_, ?_, ?_⟩ ?_ <;>
    simp [empty, nested, Named.names]

end Definition

/-! ## What is written can be spelled -/

theorem Value.spellable_lexeme (v : Value) : v.lexeme.Spellable := by
  cases v with
  | flag b => cases b <;> rfl
  | _ => trivial

theorem KeyList.spellable_ofKeys? {keys : List String} (h : ∀ k ∈ keys, isIdentifier k = true) :
    ∀ t ∈ (ofKeys? keys).elim [] KeyList.tokens, t.lexeme.Spellable := by
  cases keys with
  | nil => simp [ofKeys?]
  | cons key keys =>
    obtain ⟨hkey, hkeys⟩ := List.forall_mem_cons.1 h
    simp only [ofKeys?, Option.elim_some, tokens, tailTokens, Option.toList_none, List.map_nil,
      List.append_nil, List.forall_mem_cons, List.forall_mem_flatMap, List.forall_mem_map]
    exact ⟨hkey, fun k hk => ⟨trivial, hkeys k hk, by simp⟩⟩

namespace EntryTree

theorem bodyTokens_eq_flatMap (es : List EntryTree) : bodyTokens es = es.flatMap tokens := by
  induction es with
  | nil => rfl
  | cons e es ih => rw [bodyTokens, ih, List.flatMap_cons]

/-- All that stands in the entry can be spelled. -/
def Spellable (e : EntryTree) : Prop := ∀ t ∈ e.tokens, t.lexeme.Spellable

theorem forall_mem_bodyTokens {es : List EntryTree} :
    (∀ t ∈ bodyTokens es, t.lexeme.Spellable) ↔ ∀ e ∈ es, e.Spellable := by
  rw [bodyTokens_eq_flatMap, List.forall_mem_flatMap]
  rfl

end EntryTree

namespace Definition

variable {grammar : Grammar} {d : Definition}

theorem Writable.spellable_body (h : d.Writable grammar) : ∀ e ∈ d.body, e.Spellable := by
  induction h with
  | @intro d own children ih =>
    rw [body]
    simp only [List.forall_mem_append, List.forall_mem_map, List.forall_mem_flatMap]
    refine ⟨?_, ?_, ?_⟩
    · intro p hp
      simp only [EntryTree.Spellable, EntryTree.tokens, ValueTree.tokens, List.forall_mem_cons,
        List.forall_mem_append]
      exact ⟨(own.property p hp).1, trivial, ⟨p.2.spellable_lexeme, by simp⟩, trivial, by simp⟩
    · intro l hl
      obtain ⟨hfield, -, htargets⟩ := own.link l hl
      simp only [EntryTree.Spellable, EntryTree.tokens, ValueTree.tokens, List.forall_mem_cons,
        List.forall_mem_append]
      exact ⟨hfield, trivial, ⟨trivial, KeyList.spellable_ofKeys? htargets, trivial, by simp⟩,
        trivial, by simp⟩
    · intro e he c hc
      have hnested : (e.1, c) ∈ d.nested := mem_nested.2 ⟨e, he, rfl, hc⟩
      simp only [EntryTree.Spellable, EntryTree.tokens, List.forall_mem_cons,
        List.forall_mem_append]
      exact ⟨(own.child e he).1, (children _ hnested).own.key, trivial,
        EntryTree.forall_mem_bodyTokens.2 (ih _ hnested), trivial, by simp [semicolonTokens]⟩

variable (verb : Verb) (hverb : verb ≠ .declare)

theorem Writable.spellable_derivation (h : d.Writable grammar)
    (hname : isIdentifier d.entity.name = true) :
    ∀ l ∈ (d.derivation verb hverb).tokens.map Token.lexeme, l.Spellable := by
  rw [Derivation.tokens, derivation, List.flatMap_append]
  simp only [List.forall_mem_map, List.forall_mem_append, List.forall_mem_flatMap,
    List.forall_mem_singleton, ItemTree.tokens, List.forall_mem_cons]
  constructor
  · intro p hp
    exact ⟨rfl, h.own.package p (Option.mem_toList.1 hp), trivial⟩
  · have hkeyword : isIdentifier verb.keyword = true := by
      cases verb <;> rfl
    exact ⟨hkeyword, hname, h.own.key, trivial,
      EntryTree.forall_mem_bodyTokens.2 h.spellable_body, trivial, by simp [semicolonTokens]⟩

/-- A definition that can be written can be written with blanks between all lexemes. -/
theorem Writable.exists_isWritten (h : d.Writable grammar)
    (hname : isIdentifier d.entity.name = true) : ∃ text, d.IsWritten verb hverb text := by
  refine ⟨String.ofList (spaced ((d.derivation verb hverb).tokens.map Token.lexeme)), ?_⟩
  rw [IsWritten, String.toList_ofList]
  exact spells_spaced (h.spellable_derivation verb hverb hname)

end Definition

/-! ## What is written is read back -/

theorem EntryTree.bodyEntries_eq_map (es : List EntryTree) : bodyEntries es = es.map entry := by
  induction es with
  | nil => rfl
  | cons e es ih => rw [bodyEntries, ih, List.map_cons]

theorem Entity.childField?_of_child {e : Entity} {name target : String} {field : Field}
    (hfield : e.field? name = some field) (hshape : field.shape = .child target) :
    e.childField? name = some (name, target) := by
  obtain ⟨fieldName, shape, cardinality⟩ := field
  obtain rfl : fieldName = name := Named.nameOf_get? hfield
  obtain rfl : shape = .child target := hshape
  rw [childField?, hfield]

namespace Repository

variable {r : Repository} {source : String}

theorem addEntries_append {d d' d'' : Definition} {es es' : List Entry}
    (h : r.addEntries source d es = .ok d') (h' : r.addEntries source d' es' = .ok d'') :
    r.addEntries source d (es ++ es') = .ok d'' := by
  induction es generalizing d with
  | nil =>
    cases h
    exact h'
  | cons e es ih =>
    simp only [addEntries, bind_eq_ok] at h
    obtain ⟨b, hb, h⟩ := h
    simp only [List.cons_append, addEntries, bind_eq_ok]
    exact ⟨b, hb, ih h⟩

/-- Entries of one kind are a fold over what they fill. -/
theorem addEntries_map {α β : Type} {entry : α → Entry} {filled : β → Definition} {f : β → α → β}
    {xs : List α}
    (h : ∀ x ∈ xs, ∀ b, r.addEntry source (filled b) (entry x) = .ok (filled (f b x))) (b : β) :
    r.addEntries source (filled b) (xs.map entry) = .ok (filled (xs.foldl f b)) := by
  induction xs generalizing b with
  | nil => rfl
  | cons x xs ih =>
    obtain ⟨hx, hxs⟩ := List.forall_mem_cons.1 h
    simp only [List.map_cons, addEntries, bind_eq_ok]
    exact ⟨_, hx b, ih hxs (f b x)⟩

end Repository

namespace Definition

section Entries

variable {r : Repository} {source : String} {d : Definition} (own : d.OwnWritable r.dialect.grammar)

include own

theorem OwnWritable.addEntries_properties :
    r.addEntries source (Definition.empty d.entity d.key d.package)
      (d.properties.map fun p => .property (unplaced p.1) (unplaced p.2)) =
        .ok { d with links := [], children := [] } := by
  have hadd : ∀ p ∈ d.properties, ∀ ps,
      r.addEntry source { d with properties := ps, links := [], children := [] }
        (.property (unplaced p.1) (unplaced p.2)) =
          .ok { d with properties := Named.put p ps, links := [], children := [] } := by
    intro p hp ps
    simp [Repository.addEntry, Repository.withField, (own.property p hp).2, setProperty]
  have hfold : d.properties.foldl (fun ps p => Named.put p ps) [] = d.properties :=
    Named.foldl_append (fun _ _ => Named.put_of_not_mem) own.nodup_properties
  have hall := Repository.addEntries_map hadd []
  rw [hfold] at hall
  exact hall

theorem OwnWritable.addEntries_links :
    r.addEntries source { d with links := [], children := [] }
      (d.links.map fun l => .links (unplaced l.1) (l.2.map unplaced)) =
        .ok { d with children := [] } := by
  have hadd : ∀ l ∈ d.links, ∀ ls,
      r.addEntry source { d with links := ls, children := [] }
        (.links (unplaced l.1) (l.2.map unplaced)) =
          .ok { d with links := Named.extend l.1 l.2 ls, children := [] } := by
    intro l hl ls
    simp [Repository.addEntry, Repository.withField, (own.link l hl).2.1, addLinks,
      Function.comp_def]
  have hfold : d.links.foldl (fun ls l => Named.extend l.1 l.2 ls) [] = d.links :=
    Named.foldl_append (fun _ _ => Named.extend_of_not_mem) own.nodup_links
  have hall := Repository.addEntries_map hadd []
  rw [hfold] at hall
  exact hall

/-- Children that come one by one gather in their fields. -/
theorem OwnWritable.foldl_nested :
    d.nested.foldl (fun cs c => Named.extend c.1 [c.2] cs) [] = d.children := by
  have hfields : d.nested.foldl (fun cs c => Named.extend c.1 [c.2] cs) [] =
      d.children.foldl (fun cs e => Named.extend e.1 e.2 cs) [] := by
    rw [nested, List.foldl_flatMap]
    apply List.foldl_ext
    intro cs e he
    rw [List.foldl_map]
    exact Named.foldl_extend_singleton e.1 (own.child e he).2.1 cs
  rw [hfields]
  exact Named.foldl_append (fun _ _ => Named.extend_of_not_mem) own.nodup_children

theorem OwnWritable.addEntries_nested
    (hbody : ∀ c ∈ d.nested, r.addEntries source (Definition.empty c.2.entity c.2.key c.2.package)
      (EntryTree.bodyEntries c.2.body) = .ok c.2) :
    r.addEntries source { d with children := [] }
      (d.nested.map fun c =>
        .child (unplaced c.1) (unplaced c.2.key) (EntryTree.bodyEntries c.2.body)) = .ok d := by
  have hadd : ∀ c ∈ d.nested, ∀ cs,
      r.addEntry source { d with children := cs }
        (.child (unplaced c.1) (unplaced c.2.key) (EntryTree.bodyEntries c.2.body)) =
          .ok { d with children := Named.extend c.1 [c.2] cs } := by
    intro c hc cs
    obtain ⟨e, he, hfield, hmem⟩ := mem_nested.1 hc
    obtain ⟨-, -, field, target, hdeclared, hshape, hentities⟩ := own.child e he
    obtain ⟨hentity, hpackage⟩ := hentities c.2 hmem
    have hhead := Entity.childField?_of_child (hfield ▸ hdeclared) hshape
    have hchild := hbody c hc
    rw [hpackage] at hchild
    simp [Repository.addEntry, hhead, Repository.entityAt, Repository.entity?, hentity, hchild,
      addChild]
  have hall := Repository.addEntries_map hadd []
  rw [own.foldl_nested] at hall
  rw [hall]
  cases d
  rfl

end Entries

variable {d : Definition}

theorem bodyEntries_body (d : Definition) :
    EntryTree.bodyEntries d.body =
      d.properties.map (fun p => .property (unplaced p.1) (unplaced p.2)) ++
        (d.links.map (fun l => .links (unplaced l.1) (l.2.map unplaced)) ++
          d.nested.map fun c =>
            .child (unplaced c.1) (unplaced c.2.key) (EntryTree.bodyEntries c.2.body)) := by
  rw [EntryTree.bodyEntries_eq_map, body, nested]
  simp [EntryTree.entry, ValueTree.entry, KeyList.keys_ofKeys?, List.map_flatMap, Function.comp_def]

/-- An empty definition with the entries of a definition is that definition. -/
theorem Writable.addEntries_body {r : Repository} (h : d.Writable r.dialect.grammar)
    (source : String) :
    r.addEntries source (Definition.empty d.entity d.key d.package)
      (EntryTree.bodyEntries d.body) = .ok d := by
  induction h with
  | @intro d own children ih =>
    rw [bodyEntries_body]
    exact Repository.addEntries_append own.addEntries_properties
      (Repository.addEntries_append own.addEntries_links (own.addEntries_nested ih))

/-- The statement that is written for a definition. -/
def statement (verb : Verb) (d : Definition) : Statement :=
  ⟨verb, d.package, unplaced d.entity.name, unplaced d.key, EntryTree.bodyEntries d.body⟩

theorem statements_derivation (verb : Verb) (hverb : verb ≠ .declare) (d : Definition) :
    (d.derivation verb hverb).statements = [d.statement verb] := by
  rw [derivation, statement]
  cases d.package <;> rfl

/-- The statement of a definition describes it, wherever its words stand. -/
theorem Writable.definitionOf_eq {r : Repository} (h : d.Writable r.dialect.grammar)
    {verb : Verb} {s : Statement} (hs : s.placeless = (d.statement verb).placeless)
    (source : String) : r.definitionOf source s = .ok d := by
  rw [← Repository.definitionOf_relocate fun _ => ⟨0, 0⟩]
  change r.definitionOf source s.placeless = .ok d
  rw [hs, Statement.placeless, Repository.definitionOf_relocate, Repository.definitionOf]
  simp only [bind_eq_ok, Repository.entityAt_eq_ok]
  exact ⟨d.entity, h.own.entity, h.addEntries_body source⟩

theorem IsWritten.exists_parse {verb : Verb} {hverb : verb ≠ .declare} {text : String}
    (h : d.IsWritten verb hverb text) :
    ∃ s, Statement.parse text = .ok [s] ∧ s.placeless = (d.statement verb).placeless := by
  obtain ⟨ts, hts, hlexemes⟩ := Spells.exists_tokenize h
  obtain ⟨q, hq, hstatements⟩ := exists_run_of_derivation hlexemes
  rw [statements_derivation] at hstatements
  obtain ⟨s, hs, hplaceless⟩ := List.map_eq_singleton_iff.1 hstatements
  refine ⟨s, ?_, hplaceless⟩
  rw [Statement.parse_of_tokenize hts, hq, ← hs]
  rfl

end Definition

/-! ## What is written is loaded -/

namespace Repository

/-- The keys that adding a definition adds are free, one after the other. -/
structure HasRoomFor (r : Repository) (d : Definition) : Prop where
  nodup : (Definition.keys (r.dialect.closure d)).Nodup
  free : ∀ key ∈ Definition.keys (r.dialect.closure d), r.contains key = false

theorem HasRoomFor.add_eq {r : Repository} {d : Definition} (h : r.HasRoomFor d) :
    r.add d = .ok { r with definitions := r.definitions ++ r.dialect.closure d } := by
  have hfree : firstTaken (Named.names r.definitions) (r.dialect.closure d) = none := by
    refine firstTaken_eq_none_iff.2 ⟨h.nodup, fun key hkey hstored => ?_⟩
    have hcontains : r.contains key = true := Named.has_iff.2 hstored
    rw [h.free key hkey] at hcontains
    cases hcontains
  simp only [add, hfree]

theorem exists_closure_eq_cons (dialect : Dialect) (d : Definition) :
    ∃ implied, dialect.closure d = d :: implied := by
  rw [Dialect.closure]
  cases dialect.generations d with
  | zero => exact ⟨[], rfl⟩
  | succ n => exact ⟨_, rfl⟩

/-- Among the definitions that adding a definition adds, it is the one with its key. -/
theorem HasRoomFor.get?_append {r : Repository} {d : Definition} (h : r.HasRoomFor d) :
    Named.get? (r.definitions ++ r.dialect.closure d) d.key = some d := by
  obtain ⟨implied, hclosure⟩ := exists_closure_eq_cons r.dialect d
  have hfree : Named.get? r.definitions d.key = none := by
    have hcontains := h.free d.key (by simp [hclosure, Named.names, Named.nameOf])
    rw [contains, ← Named.get?_isSome] at hcontains
    simpa using hcontains
  rw [Named.get?_append, hfree, hclosure, Named.get?_cons]
  exact if_pos rfl

/-- **Definitions are read back from model text.** A definition that can be written, of an entity
whose name is an identifier, is written by some text. Loading any such text adds the definition if
there is room for it; written with `alter`, it is queued. -/
theorem load_of_isWritten (r : Repository) (source : String) {d : Definition}
    (h : d.Writable r.dialect.grammar) (hname : isIdentifier d.entity.name = true) :
    (∀ verb, ∀ hverb : verb ≠ .declare, ∃ text, d.IsWritten verb hverb text) ∧
      (∀ text, d.IsWritten .create (by decide) text → r.HasRoomFor d →
        ∃ r', r.load source text = (r', .ok ()) ∧ r'.get? d.key = some d ∧ r.add d = .ok r') ∧
      ∀ text, d.IsWritten .alter (by decide) text →
        r.load source text = (r.alter d, .ok ()) := by
  refine ⟨fun verb hverb => h.exists_isWritten verb hverb hname, ?_, ?_⟩
  · intro text htext hroom
    obtain ⟨s, hparse, hs⟩ := htext.exists_parse
    have hverb : s.verb = .create := congrArg Statement.verb hs
    refine ⟨{ r with definitions := r.definitions ++ r.dialect.closure d }, ?_,
      hroom.get?_append, hroom.add_eq⟩
    simp [load, hparse, applyAll, applyStatement, h.definitionOf_eq hs, hverb, hroom.add_eq,
      Except.mapError, Bind.bind, Except.bind]
  · intro text htext
    obtain ⟨s, hparse, hs⟩ := htext.exists_parse
    have hverb : s.verb = .alter := congrArg Statement.verb hs
    simp [load, hparse, applyAll, applyStatement, h.definitionOf_eq hs, hverb, Except.mapError,
      Bind.bind, Except.bind, Pure.pure, Except.pure]

def box : Entity := ⟨"Box", [], false⟩

def shelf : Entity :=
  ⟨"Shelf", [⟨"note", .property .text, .one⟩, ⟨"room", .property .integer, .one⟩,
    ⟨"full", .property .flag, .one⟩, ⟨"next", .link "Shelf", .many⟩,
    ⟨"above", .link "Shelf", .many⟩, ⟨"box", .child "Box", .many⟩], false⟩

/-- Shelves with boxes on them. -/
def shelves : Dialect := ⟨⟨[box, shelf], []⟩, fun _ => [], fun _ => 0⟩

/-- A shelf with names and values that are easily misread. -/
def oddShelf : Definition where
  entity := shelf
  package := some "store"
  key := "create"
  properties := [("note", .text "\"a\"\n\t\\"), ("room", .integer Int64.minValue),
    ("full", .flag false)]
  links := [("next", ["true", "create"]), ("above", [])]
  children := [("box", [.empty box "b1" (some "store"), .empty box "b2" (some "store")])]

def oddShelfText : String :=
  "package store ; create Shelf create \x7b note : \"\\\"a\\\"\\n\\t\\\\\" ; " ++
    "room : -9223372036854775808 ; full : false ; next : [ true , create ] ; above : [ ] ; " ++
    "box b1 \x7b \x7d box b2 \x7b \x7d \x7d "

theorem writable_oddShelf : oddShelf.Writable shelves.grammar := by
  have hbox : ∀ key, isIdentifier key = true →
      (Definition.empty box key (some "store")).Writable shelves.grammar := by
    intro key hkey
    exact Definition.writable_empty (by decide) hkey (by decide +kernel)
  refine .intro ⟨by decide, by decide +kernel, by decide +kernel, by decide +kernel,
    by decide +kernel, ?_, by decide, by decide, by decide⟩ ?_
  · intro e he
    obtain rfl := List.mem_singleton.1 he
    refine ⟨by decide +kernel, by simp, ⟨"box", .child "Box", .many⟩, "Box", rfl, rfl, ?_⟩
    intro c hc
    simp only [List.mem_cons, List.not_mem_nil, or_false] at hc
    rcases hc with rfl | rfl <;> exact ⟨rfl, rfl⟩
  · intro c hc
    simp only [Definition.nested, oddShelf, List.flatMap_singleton, List.map_cons, List.map_nil,
      List.mem_cons, List.not_mem_nil, or_false] at hc
    rcases hc with rfl | rfl
    · exact hbox "b1" (by decide +kernel)
    · exact hbox "b2" (by decide +kernel)

theorem isWritten_oddShelf : oddShelf.IsWritten .create (by decide) oddShelfText := by
  have hofList : ∀ a b c : List Char,
      (String.ofList a ++ String.ofList b ++ String.ofList c).toList = a ++ b ++ c := by
    intro a b c
    simp only [String.toList_append, String.toList_ofList]
  have hchars : oddShelfText.toList = _ := hofList _ _ _
  have htext : oddShelfText.toList =
      spaced ((oddShelf.derivation .create (by decide)).tokens.map Token.lexeme) := by
    rw [hchars]
    decide +kernel
  rw [Definition.IsWritten, htext]
  exact spells_spaced
    (writable_oddShelf.spellable_derivation .create (by decide) (by decide +kernel))

theorem load_of_isWritten_oddShelf :
    ∃ r', (start shelves).load "store" oddShelfText = (r', .ok ()) ∧
      r'.get? "create" = some oddShelf := by
  obtain ⟨r', hload, hget, -⟩ :=
    (load_of_isWritten (start shelves) "store" writable_oddShelf (by decide +kernel)).2.1
      oddShelfText isWritten_oddShelf ⟨by decide, by decide⟩
  exact ⟨r', hload, hget⟩

/-- An entity with a blank in its name. -/
def cupBoard : Entity := ⟨"cup board", [], false⟩

def cupBoards : Dialect := ⟨⟨[cupBoard], []⟩, fun _ => [], fun _ => 0⟩

/-- An entity may have a name that is no identifier. Then what would be written for its definitions
does not load, although they can be added. -/
theorem not_load_of_blank_in_name :
    (Definition.empty cupBoard "K" none).Writable cupBoards.grammar ∧
      (start cupBoards).HasRoomFor (.empty cupBoard "K" none) ∧
      "create cup board K \x7b \x7d ".toList =
        spaced (((Definition.empty cupBoard "K" none).derivation .create (by decide)).tokens.map
          Token.lexeme) ∧
      ((start cupBoards).load "s" "create cup board K \x7b \x7d ").1.get? "K" = none := by
  refine ⟨?_, ⟨?_, ?_⟩, ?_, ?_⟩
  · exact Definition.writable_empty (by decide) (by decide +kernel) (by simp)
  · decide
  · decide
  · decide +kernel
  · decide +kernel

end Repository

end Metamodel
