import Metamodel.Proofs.JoinedTexts
import Metamodel.Proofs.Nesting
import Metamodel.Proofs.PartialLoads
import Metamodel.Proofs.TokenTiling

set_option autoImplicit false

/-! # Errors quote the word at fault

A load that stops at a word which names no entity or no field reports the word as it stands in the
text, byte for byte, and it is the first word of the text that is at fault
(`Repository.load_quotes`).

Which words are at fault is said without the loader (`Statement.Misnames`): an entry is judged by the
entity around it (`Entry.StandsIn`), which is the one that the statement names, or the one of the
child field that the block around the entry fills. The faults in document order are these and no
others (`Statement.mem_faults_iff`). Their words are among the words of the statements
(`Statement.words`), in the same order, and these are among the tokens of the text. So the first
fault is also the one whose word stands furthest in front. -/

namespace Metamodel

/-! ## Words that name nothing -/

/-- The entities of child fields are in the grammar. -/
def Grammar.ChildrenRegistered (g : Grammar) : Prop :=
  ∀ e ∈ g.entities, ∀ f ∈ e.fields, ∀ target, f.shape = .child target → g.entity? target ≠ none

/-- The children in a block with this head, within a definition of the entity, are of the target:
the head is a child field for it, or is no child field but the target of one. -/
inductive Entity.Heads (e : Entity) (head : String) : String → Prop
  | field {target : String} (h : e.HoldsChildren head target) : e.Heads head target
  | target {f : Field} (hnone : ∀ target, ¬e.HoldsChildren head target) (hf : f ∈ e.fields)
    (hshape : f.shape = .child head) : e.Heads head head

/-- The first word of an entry: the name of a field or the head of a block. -/
def Entry.head : Entry → Located String
  | .property field _ => field
  | .links field _ => field
  | .child head _ _ => head

/-- The entity has what the first word of the entry names. It has to have a field of this name, and
for a block a child field of this name or one for children of the entity of this name. -/
def Entry.NamedIn (e : Entity) : Entry → Prop
  | .property field _ => field.value ∈ Named.names e.fields
  | .links field _ => field.value ∈ Named.names e.fields
  | .child head _ _ => (∃ target, e.HoldsChildren head.value target) ∨
    ∃ f ∈ e.fields, f.shape = .child head.value

/-- Among entries of a definition of the first entity, the entry stands within a definition of the
second: it is one of them, or stands in the block of one. -/
inductive Entry.StandsIn (g : Grammar) : Entity → List Entry → Entity → Entry → Prop
  | here {outer : Entity} {entries : List Entry} {entry : Entry} (h : entry ∈ entries) :
    StandsIn g outer entries outer entry
  | block {outer middle inner : Entity} {entries body : List Entry} {entry : Entry}
    {head name : Located String} {target : String} (h : .child head name body ∈ entries)
    (hhead : outer.Heads head.value target) (htarget : g.entity? target = some middle)
    (hbody : StandsIn g middle body inner entry) : StandsIn g outer entries inner entry

/-- A word of the statement names no entity, or nothing that the entity around it has. -/
inductive Statement.Misnames (g : Grammar) (source : String) (s : Statement) : SourceError → Prop
  | entity (h : g.entity? s.entity.value = none) :
    Misnames g source s (.unknownEntity source s.entity.value s.entity.span)
  | field {outer inner : Entity} {entry : Entry} (hs : g.entity? s.entity.value = some outer)
    (hentry : Entry.StandsIn g outer s.body inner entry) (h : ¬entry.NamedIn inner) :
    Misnames g source s (.unknownField source inner.name entry.head.value entry.head.span)

/-- The word that an error reports. -/
def SourceError.word? : SourceError → Option (Located String)
  | .unknownEntity _ entity span => some ⟨entity, span⟩
  | .unknownField _ _ field span => some ⟨field, span⟩
  | _ => none

/-! ## Heads of blocks -/

namespace Entity

variable {e : Entity} {head target : String}

theorem childField?_of_holdsChildren (h : e.HoldsChildren head target) :
    ∃ field, e.childField? head = some (field, target) := by
  obtain ⟨⟨name, shape, cardinality⟩, hfield, rfl⟩ := h
  exact ⟨name, by rw [childField?, hfield]⟩

theorem childField?_of_not_holdsChildren (h : ∀ target, ¬e.HoldsChildren head target) :
    e.childField? head = (e.childFieldFor? head).map fun f => (f.name, head) := by
  unfold childField?
  split
  · next hfield => exact absurd ⟨_, hfield, rfl⟩ (h _)
  · rfl

theorem heads_iff : e.Heads head target ↔ ∃ field, e.childField? head = some (field, target) := by
  constructor
  · intro h
    cases h with
    | field h => exact childField?_of_holdsChildren h
    | @target f hnone hf hshape =>
      have hsome : (e.childFieldFor? head).isSome = true :=
        List.find?_isSome.2 ⟨f, hf, by simpa using hshape⟩
      obtain ⟨f', hf'⟩ := Option.isSome_iff_exists.1 hsome
      exact ⟨f'.name, by rw [childField?_of_not_holdsChildren hnone, hf', Option.map_some]⟩
  · rintro ⟨field, h⟩
    by_cases hholds : ∃ target, e.HoldsChildren head target
    · obtain ⟨target', hholds⟩ := hholds
      obtain ⟨field', hfield'⟩ := childField?_of_holdsChildren hholds
      obtain ⟨rfl, rfl⟩ := Prod.mk.inj (Option.some.inj (hfield'.symm.trans h))
      exact .field hholds
    · have hnone := not_exists.1 hholds
      rw [childField?_of_not_holdsChildren hnone] at h
      obtain ⟨f, hf, hpair⟩ := Option.map_eq_some_iff.1 h
      obtain ⟨-, rfl⟩ := Prod.mk.inj hpair
      exact .target hnone (List.mem_of_find?_eq_some hf) (by simpa using List.find?_some hf)

/-- A block is for some children if its head is a child field or the target of one. -/
theorem exists_heads_iff : (∃ target, e.Heads head target) ↔
    (∃ target, e.HoldsChildren head target) ∨ ∃ f ∈ e.fields, f.shape = .child head := by
  constructor
  · rintro ⟨target, h⟩
    cases h with
    | field h => exact .inl ⟨_, h⟩
    | target _ hf hshape => exact .inr ⟨_, hf, hshape⟩
  · intro h
    by_cases hholds : ∃ target, e.HoldsChildren head target
    · obtain ⟨target, hholds⟩ := hholds
      exact ⟨target, .field hholds⟩
    · obtain ⟨f, hf, hshape⟩ := h.resolve_left hholds
      exact ⟨head, .target (not_exists.1 hholds) hf hshape⟩

end Entity

section Faults

variable {g : Grammar} {source : String}

/-- The children of an entity of the grammar are of such an entity as well. -/
theorem Grammar.ChildrenRegistered.exists_entity? (hg : g.ChildrenRegistered) {e : Entity}
    (he : e ∈ g.entities) {head target : String} (h : e.Heads head target) :
    ∃ inner, g.entity? target = some inner := by
  rw [← Option.ne_none_iff_exists']
  cases h with
  | field h =>
    obtain ⟨f, hf, hshape⟩ := h
    exact hg e he f (Named.mem_of_get? hf) _ hshape
  | target _ hf hshape => exact hg e he _ hf _ hshape

/-! ## Faults of entries -/

/-- An entry whose first word names nothing has this fault and no others. -/
theorem Entry.faults_of_not_namedIn {e : Entity} {entry : Entry} (h : ¬entry.NamedIn e) :
    entry.faults g source e =
      [.unknownField source e.name entry.head.value entry.head.span] := by
  cases entry with
  | property field value =>
    have hfield : e.hasField field.value = false := Bool.eq_false_iff.2 fun hf => h (Named.has_iff.1 hf)
    simp [faults, Entity.faultsOfField, hfield, Entry.head]
  | links field targets =>
    have hfield : e.hasField field.value = false := Bool.eq_false_iff.2 fun hf => h (Named.has_iff.1 hf)
    simp [faults, Entity.faultsOfField, hfield, Entry.head]
  | child head name body =>
    have hnone : e.childField? head.value = none := by
      by_contra hsome
      obtain ⟨⟨field, target⟩, hhead⟩ := Option.ne_none_iff_exists'.1 hsome
      exact h (Entity.exists_heads_iff.1 ⟨target, Entity.heads_iff.2 ⟨field, hhead⟩⟩)
    rw [faults, hnone, Entry.head]

/-- A field that the entity has is no fault. -/
theorem Entity.faultsOfField_of_mem {e : Entity} {field : Located String}
    (h : field.value ∈ Named.names e.fields) : e.faultsOfField source field = [] :=
  if_pos (Named.has_iff.2 h)

/-- The faults of a block that can stand where it does are those of its body. -/
theorem Entry.faults_child {e inner : Entity} {head name : Located String} {body : List Entry}
    {target : String} (hhead : e.Heads head.value target) (htarget : g.entity? target = some inner) :
    (Entry.child head name body).faults g source e = Entry.faultsOfBody g source inner body := by
  obtain ⟨field, hfield⟩ := Entity.heads_iff.1 hhead
  rw [faults, hfield]
  simp only [Grammar.faultsWithin, htarget]

theorem Entry.faultsOfBody_eq_flatMap (e : Entity) (entries : List Entry) :
    Entry.faultsOfBody g source e entries = entries.flatMap (Entry.faults g source e) := by
  induction entries with
  | nil => rw [faultsOfBody, List.flatMap_nil]
  | cons entry entries ih => rw [faultsOfBody, ih, List.flatMap_cons]

theorem Entry.StandsIn.mono {outer inner : Entity} {entries entries' : List Entry} {entry : Entry}
    (h : StandsIn g outer entries inner entry) (hsub : entries ⊆ entries') :
    StandsIn g outer entries' inner entry := by
  cases h with
  | here hentry => exact .here (hsub hentry)
  | block hblock hhead htarget hbody => exact .block (hsub hblock) hhead htarget hbody

mutual

/-- A fault of an entry is one of a word that names nothing. -/
theorem Entry.exists_standsIn_of_mem_faults (hg : g.ChildrenRegistered) {outer : Entity}
    (ho : outer ∈ g.entities) {fault : SourceError} :
    ∀ entry : Entry, fault ∈ entry.faults g source outer →
      ∃ inner x, StandsIn g outer [entry] inner x ∧ ¬x.NamedIn inner ∧
        fault = .unknownField source inner.name x.head.value x.head.span
  | .property field value, hfault => by
    by_cases h : (Entry.property field value).NamedIn outer
    · rw [faults, Entity.faultsOfField_of_mem h] at hfault
      cases hfault
    · rw [faults_of_not_namedIn h, List.mem_singleton] at hfault
      exact ⟨outer, _, .here (List.mem_singleton_self _), h, hfault⟩
  | .links field targets, hfault => by
    by_cases h : (Entry.links field targets).NamedIn outer
    · rw [faults, Entity.faultsOfField_of_mem h] at hfault
      cases hfault
    · rw [faults_of_not_namedIn h, List.mem_singleton] at hfault
      exact ⟨outer, _, .here (List.mem_singleton_self _), h, hfault⟩
  | .child head name body, hfault => by
    by_cases h : (Entry.child head name body).NamedIn outer
    · obtain ⟨target, hhead⟩ := Entity.exists_heads_iff.2 h
      obtain ⟨middle, hmiddle⟩ := hg.exists_entity? ho hhead
      rw [faults_child hhead hmiddle] at hfault
      obtain ⟨inner, x, hx, hnamed, heq⟩ :=
        Entry.exists_standsIn_of_mem_faultsOfBody hg (Named.mem_of_get? hmiddle) body hfault
      exact ⟨inner, x, .block (List.mem_singleton_self _) hhead hmiddle hx, hnamed, heq⟩
    · rw [faults_of_not_namedIn h, List.mem_singleton] at hfault
      exact ⟨outer, _, .here (List.mem_singleton_self _), h, hfault⟩

theorem Entry.exists_standsIn_of_mem_faultsOfBody (hg : g.ChildrenRegistered) {outer : Entity}
    (ho : outer ∈ g.entities) {fault : SourceError} :
    ∀ entries : List Entry, fault ∈ Entry.faultsOfBody g source outer entries →
      ∃ inner x, StandsIn g outer entries inner x ∧ ¬x.NamedIn inner ∧
        fault = .unknownField source inner.name x.head.value x.head.span
  | [], hfault => by
    rw [faultsOfBody] at hfault
    cases hfault
  | entry :: entries, hfault => by
    rw [faultsOfBody, List.mem_append] at hfault
    rcases hfault with hfault | hfault
    · obtain ⟨inner, x, hx, h⟩ := Entry.exists_standsIn_of_mem_faults hg ho entry hfault
      exact ⟨inner, x, hx.mono (by simp), h⟩
    · obtain ⟨inner, x, hx, h⟩ := Entry.exists_standsIn_of_mem_faultsOfBody hg ho entries hfault
      exact ⟨inner, x, hx.mono (List.subset_cons_self entry entries), h⟩

end

/-- A word that names nothing is a fault, wherever it stands. -/
theorem Entry.StandsIn.mem_faultsOfBody {outer inner : Entity} {entries : List Entry}
    {entry : Entry} (h : StandsIn g outer entries inner entry) (hnamed : ¬entry.NamedIn inner) :
    .unknownField source inner.name entry.head.value entry.head.span ∈
      Entry.faultsOfBody g source outer entries := by
  induction h with
  | here hentry =>
    rw [faultsOfBody_eq_flatMap, List.mem_flatMap]
    exact ⟨_, hentry, by rw [faults_of_not_namedIn hnamed]; exact List.mem_singleton_self _⟩
  | block hblock hhead htarget _ ih =>
    rw [faultsOfBody_eq_flatMap, List.mem_flatMap]
    exact ⟨_, hblock, by rw [faults_child hhead htarget]; exact ih hnamed⟩

/-- The faults of a statement are those of its words that name nothing. -/
theorem Statement.mem_faults_iff (hg : g.ChildrenRegistered) {s : Statement} {fault : SourceError} :
    fault ∈ s.faults g source ↔ s.Misnames g source fault := by
  rw [faults, Grammar.faultsWithin]
  constructor
  · intro hfault
    cases hs : g.entity? s.entity.value with
    | none =>
      rw [hs, List.mem_singleton] at hfault
      rw [hfault]
      exact .entity hs
    | some outer =>
      rw [hs] at hfault
      obtain ⟨inner, entry, hentry, hnamed, rfl⟩ :=
        Entry.exists_standsIn_of_mem_faultsOfBody hg (Named.mem_of_get? hs) s.body hfault
      exact .field hs hentry hnamed
  · intro h
    cases h with
    | entity hs =>
      rw [hs]
      exact List.mem_singleton_self _
    | field hs hentry hnamed =>
      rw [hs]
      exact hentry.mem_faultsOfBody hnamed

/-! ## Words in document order -/

mutual

/-- The words of an entry that are to name fields. -/
def Entry.words : Entry → List (Located String)
  | .property field _ => [field]
  | .links field _ => [field]
  | .child head _ body => head :: Entry.wordsOfBody body

def Entry.wordsOfBody : List Entry → List (Located String)
  | [] => []
  | entry :: entries => entry.words ++ Entry.wordsOfBody entries

end

/-- The words of a statement that are to name its entity and fields, in document order. -/
def Statement.words (s : Statement) : List (Located String) := s.entity :: Entry.wordsOfBody s.body

mutual

/-- The words at fault are words of the entry, in this order. -/
theorem Entry.faults_sublist (hg : g.ChildrenRegistered) {e : Entity} (he : e ∈ g.entities) :
    ∀ entry : Entry, ((entry.faults g source e).filterMap SourceError.word?).Sublist entry.words
  | .property field value => by
    rw [faults, Entity.faultsOfField, words]
    split <;> simp [SourceError.word?]
  | .links field targets => by
    rw [faults, Entity.faultsOfField, words]
    split <;> simp [SourceError.word?]
  | .child head name body => by
    rw [words]
    by_cases h : (Entry.child head name body).NamedIn e
    · obtain ⟨target, hhead⟩ := Entity.exists_heads_iff.2 h
      obtain ⟨inner, hinner⟩ := hg.exists_entity? he hhead
      rw [faults_child hhead hinner]
      exact (Entry.faultsOfBody_sublist hg (Named.mem_of_get? hinner) body).cons head
    · rw [faults_of_not_namedIn h]
      simp [SourceError.word?, Entry.head]

theorem Entry.faultsOfBody_sublist (hg : g.ChildrenRegistered) {e : Entity} (he : e ∈ g.entities) :
    ∀ entries : List Entry, ((Entry.faultsOfBody g source e entries).filterMap
      SourceError.word?).Sublist (Entry.wordsOfBody entries)
  | [] => by simp [faultsOfBody]
  | entry :: entries => by
    rw [faultsOfBody, wordsOfBody, List.filterMap_append]
    exact (Entry.faults_sublist hg he entry).append (Entry.faultsOfBody_sublist hg he entries)

end

theorem Statement.faults_sublist (hg : g.ChildrenRegistered) (s : Statement) :
    ((s.faults g source).filterMap SourceError.word?).Sublist s.words := by
  rw [faults, Grammar.faultsWithin, words]
  cases hs : g.entity? s.entity.value with
  | none => simp [SourceError.word?]
  | some e =>
    exact (Entry.faultsOfBody_sublist hg (Named.mem_of_get? hs) s.body).cons s.entity

theorem Statement.flatMap_faults_sublist (hg : g.ChildrenRegistered) (ss : List Statement) :
    ((ss.flatMap (Statement.faults g source)).filterMap SourceError.word?).Sublist
      (ss.flatMap Statement.words) := by
  induction ss with
  | nil => simp
  | cons s ss ih =>
    rw [List.flatMap_cons, List.flatMap_cons, List.filterMap_append]
    exact (s.faults_sublist hg).append ih

end Faults

/-! ## Words and tokens -/

mutual

/-- The words of an entry are among its tokens, in this order. -/
theorem EntryTree.words_sublist :
    ∀ e : EntryTree, (e.entry.words.map Located.token).Sublist e.tokens
  | .assign field colon value semicolon => by
    have hwords : (value.entry field).words = [field] := by
      cases value <;> rw [ValueTree.entry, Entry.words]
    rw [entry, tokens, hwords]
    simp
  | .child head name leftBrace body rightBrace semicolon => by
    rw [entry, tokens, Entry.words, List.map_cons]
    have hbody := (EntryTree.bodyWords_sublist body).trans
      (List.sublist_append_left _ (⟨.rightBrace, rightBrace⟩ :: semicolonTokens semicolon))
    exact ((hbody.cons _).cons _).cons_cons _

theorem EntryTree.bodyWords_sublist : ∀ es : List EntryTree,
    ((Entry.wordsOfBody (EntryTree.bodyEntries es)).map Located.token).Sublist
      (EntryTree.bodyTokens es)
  | [] => by simp [bodyEntries, Entry.wordsOfBody]
  | e :: es => by
    rw [bodyEntries, bodyTokens, Entry.wordsOfBody, List.map_append]
    exact (EntryTree.words_sublist e).append (EntryTree.bodyWords_sublist es)

end

theorem Derivation.words_sublist (d : Derivation) (package : Option String) :
    (((d.statementsIn package).flatMap Statement.words).map Located.token).Sublist d.tokens := by
  induction d generalizing package with
  | nil => simp [statementsIn]
  | cons item d ih =>
    rw [tokens, List.flatMap_cons]
    cases item with
    | package keyword name semicolon =>
      exact (ih _).trans (List.sublist_append_right _ _)
    | block verb withBody keyword entity name leftBrace body rightBrace semicolon =>
      rw [statementsIn, List.flatMap_cons, List.map_append]
      refine List.Sublist.append ?_ (ih package)
      have hbody := (EntryTree.bodyWords_sublist body).trans
        (List.sublist_append_left _ (⟨.rightBrace, rightBrace⟩ :: semicolonTokens semicolon))
      exact ((((hbody.cons _).cons _).cons_cons _).cons _)
    | declare keyword entity name semicolon =>
      rw [statementsIn, List.flatMap_cons, List.map_append]
      refine List.Sublist.append ?_ (ih package)
      simp [Statement.words, Entry.wordsOfBody, ItemTree.tokens]

/-- A word is written by its own characters. -/
theorem ofList_taken_of_scan {c : Char} {cs : List Char} {p : Piece} {word : String}
    (h : scan c cs = .ok p) (hp : p.lexeme = some (.word word)) : String.ofList p.taken = word := by
  cases scan_eq_ok_iff.1 h with
  | mark hmark =>
    cases hp
    unfold Lexeme.ofMark? at hmark
    split at hmark <;> cases hmark
  | word =>
    cases hp
    rfl
  | _ => cases hp

theorem Reads.ofList_taken {word : String} {taken rest : List Char}
    (h : Reads (.word word) taken rest) : String.ofList taken = word := by
  cases h with
  | lexeme hscan hp => exact ofList_taken_of_scan hscan hp

/-! ## The reported word -/

/-- Where the words of a text stand, and what stands there. -/
theorem Statement.words_of_parse {text : String} {ss : List Statement} (h : parse text = .ok ss) :
    (∀ w ∈ ss.flatMap words, w.span.Holds text w.value) ∧
      (ss.flatMap words).Pairwise fun v w => v.span.stop ≤ w.span.start := by
  obtain ⟨d, ⟨stop, htokens⟩, rfl⟩ := Derivation.exists_isOf_of_parse h
  have hsub := (d.words_sublist none).trans
    (List.sublist_append_left d.tokens [⟨.endOfInput, stop⟩])
  constructor
  · intro w hw
    obtain ⟨front, taken, rest, htext, hstart, hstop, hreads⟩ :=
      exists_reads_of_mem htokens (hsub.subset (List.mem_map_of_mem hw))
    rw [← hreads.ofList_taken]
    exact Span.holds_of_toList htext hstart hstop
  · have hpairs := (tokenize_tiling htokens).increasing.sublist hsub
    exact (List.pairwise_map.1 hpairs).imp fun h => h.2

namespace Repository

variable {r r' : Repository} {source text : String}

/-- Statements that stand for steps have no faults. -/
theorem flatMap_faults_eq_nil {ss : List Statement} {steps : List Filling}
    (h : List.Forall₂ (r.StandsFor source) ss steps) :
    ss.flatMap (Statement.faults r.dialect.grammar source) = [] := by
  induction h with
  | nil => rfl
  | cons hstep _ ih =>
    rw [List.flatMap_cons, exists_standsFor_iff.1 ⟨_, hstep⟩, ih]
    rfl

/-- The first fault of a text is reported if loading stops at a fault. -/
theorem exists_of_load_eq_error {e : SourceError} {w : Located String}
    (hload : r.load source text = (r', .error (.source e))) (hw : e.word? = some w) :
    ∃ ss, Statement.parse text = .ok ss ∧
      (ss.flatMap (Statement.faults r.dialect.grammar source)).head? = some e := by
  rw [load] at hload
  cases hparse : Statement.parse text with
  | error e' =>
    rw [hparse] at hload
    cases hload
    cases hw
  | ok ss =>
    rw [hparse] at hload
    obtain ⟨before, s, after, rfl, hbefore, hrefuses⟩ := applyAll_eq_error_iff.1 hload
    obtain ⟨steps, hsteps, -, rfl⟩ := applyAll_eq_ok_iff.1 hbefore
    refine ⟨_, rfl, ?_⟩
    rw [List.flatMap_append, flatMap_faults_eq_nil hsteps, List.nil_append, List.flatMap_cons]
    cases hrefuses with
    | fault hfault =>
      obtain ⟨more, hmore⟩ := List.head?_eq_some_iff.1 hfault
      rw [dialect_extendedBy] at hmore
      rw [hmore]
      rfl

/-- **An error quotes the word at fault.** If loading a text stops at a word that names no entity or
no field, and the grammar has the entities of all child fields, then the bytes of the text at the
place of the error are this word. It is the first fault of the text in document order, a word of a
statement that names no entity, or nothing that the entity around it has; and every other such word
of the text stands behind it. -/
theorem load_quotes {e : SourceError} {w : Located String}
    (hgrammar : r.dialect.grammar.ChildrenRegistered)
    (hload : r.load source text = (r', .error (.source e))) (hw : e.word? = some w) :
    w.span.Within text ∧ text.toUTF8.extract w.span.start w.span.stop = w.value.toUTF8 ∧
      ∃ ss, Statement.parse text = .ok ss ∧
        (ss.flatMap (Statement.faults r.dialect.grammar source)).head? = some e ∧
        (∃ s ∈ ss, s.Misnames r.dialect.grammar source e) ∧
        ∀ s ∈ ss, ∀ e', s.Misnames r.dialect.grammar source e' →
          e' = e ∨ ∀ w' ∈ e'.word?, w.span.stop ≤ w'.span.start := by
  obtain ⟨ss, hparse, hfirst⟩ := exists_of_load_eq_error hload hw
  obtain ⟨hholds, hpairs⟩ := Statement.words_of_parse hparse
  obtain ⟨more, hmore⟩ := List.head?_eq_some_iff.1 hfirst
  -- The words at fault are words of the statements, the reported one in front of the others.
  have hsub : (w :: more.filterMap SourceError.word?).Sublist (ss.flatMap Statement.words) := by
    have hfaults := @Statement.flatMap_faults_sublist _ source hgrammar ss
    rwa [hmore, List.filterMap_cons_some hw] at hfaults
  have hword := hholds w (hsub.subset List.mem_cons_self)
  have hbehind := (List.pairwise_cons.1 (hpairs.sublist hsub)).1
  refine ⟨hword.within, hword.extract_eq, ss, hparse, hfirst, ?_, ?_⟩
  · have he : e ∈ ss.flatMap (Statement.faults r.dialect.grammar source) := by
      rw [hmore]
      exact List.mem_cons_self
    obtain ⟨s, hs, hfault⟩ := List.mem_flatMap.1 he
    exact ⟨s, hs, (Statement.mem_faults_iff hgrammar).1 hfault⟩
  · intro s hs e' he'
    have hfault : e' ∈ ss.flatMap (Statement.faults r.dialect.grammar source) :=
      List.mem_flatMap.2 ⟨s, hs, (Statement.mem_faults_iff hgrammar).2 he'⟩
    rw [hmore] at hfault
    rcases List.mem_cons.1 hfault with heq | hrest
    · exact .inl heq
    · right
      intro w' hw'
      exact hbehind w' (List.mem_filterMap.2 ⟨e', hrest, hw'⟩)

/-- A text with characters of several bytes in front of an unknown field, and an unknown entity
behind it. -/
def menuText : String :=
  "// Küche\ncreate DtDefinition Dish \x7b id disId \x7b label: \"Crêpe\"; colour: \"Red\"; \x7d \x7d
    create Plate Soup \x7b \x7d"

set_option maxRecDepth 4000 in
theorem load_quotes_menuText :
    Grammar.standard.ChildrenRegistered ∧
      ∃ q, (start .standard).load "menu" menuText =
        (q, .error (.source (.unknownField "menu" "IdField" "colour" ⟨65, 71⟩))) ∧
        Span.Within ⟨65, 71⟩ menuText ∧ menuText.toUTF8.extract 65 71 = "colour".toUTF8 := by
  have hgrammar : Grammar.standard.ChildrenRegistered := by
    have hchildren : ∀ e ∈ Grammar.standard.entities, ∀ f ∈ e.fields, f.shape.role = .child →
        ∃ k ∈ EntityKind.all, f.shape = .child k.name := by
      decide +kernel
    have hkinds : ∀ k ∈ EntityKind.all, Grammar.standard.entity? k.name ≠ none := by
      decide +kernel
    intro e he f hf target hshape
    obtain ⟨k, hk, hname⟩ := hchildren e he f hf (by rw [hshape]; rfl)
    obtain rfl : target = k.name := Shape.child.inj (hshape.symm.trans hname)
    exact hkinds k hk
  have htext : Statement.parse menuText = _ := Statement.parse_ofList _
  cases hload : (start .standard).load "menu" menuText with
  | mk q outcome =>
    have houtcome : outcome =
        .error (.source (.unknownField "menu" "IdField" "colour" ⟨65, 71⟩)) := by
      have hsnd : outcome = ((start .standard).load "menu" menuText).2 := by rw [hload]
      rw [hsnd, load, htext]
      decide +kernel
    subst houtcome
    obtain ⟨hwithin, hbytes, -⟩ := load_quotes hgrammar hload rfl
    exact ⟨hgrammar, q, rfl, hwithin, hbytes⟩

end Repository

end Metamodel
