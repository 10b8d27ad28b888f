import Metamodel.Proofs.Loading

set_option autoImplicit false

/-! # Places do not matter

The places of tokens are handed on to what is read from them and to errors, and decide nothing.
Reading tokens that have been moved to other places gives the statements of the tokens, moved in the
same way (`run_relocate`), and a statement describes the same definition wherever it stands
(`definitionOf_relocate`). So whether tokens can be read, and what is loaded from them, depends on
their lexemes alone (`exists_run_of_lexemes`). -/

namespace Metamodel

/-! ## Moving what has been read -/

section Relocate

variable (f : Span → Span)

def Located.relocate {α : Type} (x : Located α) : Located α := ⟨x.value, f x.span⟩

@[simp] theorem Located.value_relocate {α : Type} (x : Located α) :
    (x.relocate f).value = x.value := rfl

def Token.relocate (t : Token) : Token := ⟨t.lexeme, f t.span⟩

mutual

def Entry.relocate : Entry → Entry
  | .property field value => .property (field.relocate f) (value.relocate f)
  | .links field targets => .links (field.relocate f) (targets.map (Located.relocate f))
  | .child head name body =>
    .child (head.relocate f) (name.relocate f) (Entry.relocateAll body)

def Entry.relocateAll : List Entry → List Entry
  | [] => []
  | e :: es => e.relocate :: Entry.relocateAll es

end

def Statement.relocate (s : Statement) : Statement :=
  { s with
    entity := s.entity.relocate f
    name := s.name.relocate f
    body := Entry.relocateAll f s.body }

def Block.relocate : Block → Block
  | .statement verb entity name entries =>
    .statement verb (entity.relocate f) (name.relocate f) (Entry.relocateAll f entries)
  | .child outer head name entries =>
    .child outer.relocate (head.relocate f) (name.relocate f) (Entry.relocateAll f entries)

def Place.relocate : Place → Place
  | .between afterBlock => .between afterBlock
  | .package => .package
  | .packageEnd p => .packageEnd p
  | .entity verb => .entity verb
  | .name verb e => .name verb (e.relocate f)
  | .declareEnd e n => .declareEnd (e.relocate f) (n.relocate f)
  | .blockStart block => .blockStart (block.relocate f)
  | .entries block afterBlock => .entries (block.relocate f) afterBlock
  | .head block h => .head (block.relocate f) (h.relocate f)
  | .value block field => .value (block.relocate f) (field.relocate f)
  | .entryEnd block entry => .entryEnd (block.relocate f) (entry.relocate f)
  | .target block field targets =>
    .target (block.relocate f) (field.relocate f) (targets.map (Located.relocate f))
  | .targetEnd block field targets =>
    .targetEnd (block.relocate f) (field.relocate f) (targets.map (Located.relocate f))

def Reader.relocate (r : Reader) : Reader :=
  ⟨r.place.relocate f, r.package, r.statements.map (Statement.relocate f)⟩

/-! ## Reading -/

theorem Entry.relocateAll_eq_map (es : List Entry) :
    Entry.relocateAll f es = es.map (Entry.relocate f) := by
  induction es with
  | nil => rfl
  | cons e es ih => rw [Entry.relocateAll, ih, List.map_cons]

theorem Block.relocate_add (entry : Entry) (b : Block) :
    (b.add entry).relocate f = (b.relocate f).add (entry.relocate f) := by
  cases b <;> simp [Block.add, Block.relocate, Entry.relocateAll_eq_map]

namespace Reader

theorem relocate_emit (r : Reader) (verb : Verb) (entity name : Located String) (body : List Entry)
    (afterBlock : Bool) :
    (r.emit verb entity name body afterBlock).relocate f =
      (r.relocate f).emit verb (entity.relocate f) (name.relocate f) (Entry.relocateAll f body)
        afterBlock := by
  simp [emit, relocate, Place.relocate, Statement.relocate]

theorem relocate_close (r : Reader) (b : Block) :
    (r.close b).relocate f = (r.relocate f).close (b.relocate f) := by
  cases b with
  | statement => simp [close, Block.relocate, relocate_emit]
  | child outer head name entries =>
    simp [close, goto, relocate, Block.relocate, Place.relocate, Block.relocate_add,
      Entry.relocate]

theorem openStatement_relocate (r : Reader) (word : String) :
    (r.relocate f).openStatement word = (r.openStatement word).map (relocate f) := by
  unfold openStatement
  split_ifs <;> rfl

theorem openValue_relocate (r : Reader) (block : Block) (field : Located String) (t : Token) :
    (r.relocate f).openValue (block.relocate f) (field.relocate f) (t.relocate f) =
      (r.openValue block field t).map (relocate f) := by
  obtain ⟨lexeme, span⟩ := t
  cases lexeme with
  | word w =>
    simp only [openValue, Token.relocate]
    split_ifs <;> rfl
  | _ => rfl

theorem step?_relocate (r : Reader) (t : Token) :
    (r.relocate f).step? (t.relocate f) = (r.step? t).map (relocate f) := by
  obtain ⟨place, package, statements⟩ := r
  obtain ⟨lexeme, span⟩ := t
  cases place with
  | between afterBlock =>
    cases lexeme with
    | word w =>
      have h := openStatement_relocate f ⟨.between afterBlock, package, statements⟩ w
      cases afterBlock <;> exact h
    | _ => cases afterBlock <;> rfl
  | name verb entity => cases verb <;> cases lexeme <;> rfl
  | entries block afterBlock =>
    cases lexeme with
    | rightBrace =>
      have h := relocate_close f ⟨.entries block afterBlock, package, statements⟩ block
      cases afterBlock <;> exact congrArg some h.symm
    | _ => cases afterBlock <;> rfl
  | value block field =>
    have h := openValue_relocate f ⟨.value block field, package, statements⟩ block field
      ⟨lexeme, span⟩
    cases lexeme <;> exact h
  | declareEnd entity name =>
    cases lexeme with
    | semicolon =>
      have h := relocate_emit f ⟨.declareEnd entity name, package, statements⟩ .declare entity name
        [] false
      exact congrArg some h.symm
    | _ => rfl
  | entryEnd block entry =>
    cases lexeme with
    | semicolon => simp [step?, relocate, Place.relocate, Token.relocate, goto, Block.relocate_add]
    | _ => rfl
  | target block field targets =>
    cases lexeme with
    | word w =>
      simp [step?, relocate, Place.relocate, Token.relocate, goto, Located.relocate]
    | _ => rfl
  | _ => cases lexeme <;> rfl

/-- Tokens elsewhere are read to the same reader, elsewhere. -/
theorem run_relocate (r : Reader) (ts : List Token) {r' : Reader} :
    (r.relocate f).run (ts.map (Token.relocate f)) = .ok r' ↔
      ∃ q, r.run ts = .ok q ∧ r' = q.relocate f := by
  induction ts generalizing r with
  | nil => simp [eq_comm]
  | cons t ts ih =>
    rw [List.map_cons, run_cons, run_cons, step, step, step?_relocate]
    cases r.step? t with
    | none => simp [Except.bind]
    | some q => exact ih q

end Reader

/-! ## Loading -/

namespace Repository

variable (r : Repository) (source : String)

mutual

theorem addEntry_relocate {d d' : Definition} :
    ∀ e : Entry, r.addEntry source d (e.relocate f) = .ok d' ↔ r.addEntry source d e = .ok d'
  | .property field value => by
    simp only [Entry.relocate, addEntry, bind_eq_ok, withField_eq_ok, Located.value_relocate]
  | .links field targets => by
    have hvalues : (targets.map (Located.relocate f)).map Located.value =
        targets.map Located.value := by
      simp
    simp only [Entry.relocate, addEntry, bind_eq_ok, withField_eq_ok, Located.value_relocate,
      hvalues]
  | .child head name body => by
    simp only [Entry.relocate, addEntry, Located.value_relocate]
    cases d.entity.childField? head.value with
    | none => simp
    | some child =>
      simp only [bind_eq_ok, entityAt_eq_ok, addEntries_relocate body]

theorem addEntries_relocate {d d' : Definition} :
    ∀ es : List Entry,
      r.addEntries source d (Entry.relocateAll f es) = .ok d' ↔ r.addEntries source d es = .ok d'
  | [] => by rw [Entry.relocateAll]
  | e :: es => by
    simp only [Entry.relocateAll, addEntries, bind_eq_ok, addEntry_relocate e,
      addEntries_relocate es]

end

/-- A statement describes the same definition wherever it stands. -/
theorem definitionOf_relocate {s : Statement} {d : Definition} :
    r.definitionOf source (s.relocate f) = .ok d ↔ r.definitionOf source s = .ok d := by
  simp only [definitionOf, bind_eq_ok, entityAt_eq_ok, Statement.relocate, Located.value_relocate,
    addEntries_relocate]

end Repository

end Relocate

/-! ## Lexemes decide -/

/-- The statement with all places forgotten. -/
def Statement.placeless (s : Statement) : Statement := s.relocate fun _ => ⟨0, 0⟩

/-- Tokens with the lexemes of tokens that can be read can be read themselves, to statements that
differ in places only. -/
theorem exists_run_of_lexemes {ts us : List Token} (h : ts.map Token.lexeme = us.map Token.lexeme)
    {r : Reader} (hr : Reader.start.run us = .ok r) :
    ∃ q, Reader.start.run ts = .ok q ∧
      q.statements.map Statement.placeless = r.statements.map Statement.placeless := by
  have forget : ∀ ts : List Token, ts.map (Token.relocate fun _ => ⟨0, 0⟩) =
      (ts.map Token.lexeme).map (⟨·, ⟨0, 0⟩⟩) := by
    intro ts
    simp [Token.relocate]
  have hus := (Reader.run_relocate (fun _ => ⟨0, 0⟩) .start us).2 ⟨r, hr, rfl⟩
  rw [forget, ← h, ← forget, Reader.run_relocate] at hus
  obtain ⟨q, hq, hplaces⟩ := hus
  exact ⟨q, hq, (congrArg Reader.statements hplaces).symm⟩

end Metamodel
