import Metamodel.Proofs.Parsing

set_option autoImplicit false

/-! # Where syntax errors are reported

An error is reported at the first token that no sentence goes on with
(`Statement.parse_error_exact`). It is not reported earlier, because every reader can still get to
the end of a file, wherever it stands: `Place.completion` gives lexemes that take it there. They
finish the entry or the statement that has been begun, then close the blocks that are open, from the
inside out (`Reader.accepts_completion`). So whatever has been read is the beginning of a sentence
(`Reader.exists_sentence_of_run`). It is not reported later, because a sentence that went on with the
token would have been read beyond it (`Reader.exists_step?_of_sentence`). -/

namespace Metamodel

/-! ## Completions -/

/-- The lexemes that close a block and those around it. -/
def Block.closing : Block → List Lexeme
  | .statement _ _ _ _ => [.rightBrace]
  | .child outer _ _ _ => .rightBrace :: outer.closing

@[simp] theorem Block.closing_add (entry : Entry) (block : Block) :
    (block.add entry).closing = block.closing := by
  cases block <;> rfl

/-- Lexemes that complete a file that has been read up to a place. -/
def Place.completion : Place → List Lexeme
  | .between _ => []
  | .package => [.word "p", .semicolon]
  | .packageEnd _ => [.semicolon]
  | .entity .declare => [.word "E", .word "n", .semicolon]
  | .entity _ => [.word "E", .word "n", .leftBrace, .rightBrace]
  | .name .declare _ => [.word "n", .semicolon]
  | .name _ _ => [.word "n", .leftBrace, .rightBrace]
  | .declareEnd _ _ => [.semicolon]
  | .blockStart block => .leftBrace :: block.closing
  | .entries block _ => block.closing
  | .head block _ => .colon :: .integer 0 :: .semicolon :: block.closing
  | .value block _ => .integer 0 :: .semicolon :: block.closing
  | .entryEnd block _ => .semicolon :: block.closing
  | .target block _ _ => .rightBracket :: .semicolon :: block.closing
  | .targetEnd block _ _ => .rightBracket :: .semicolon :: block.closing

theorem Block.endOfInput_notMem_closing (block : Block) : .endOfInput ∉ block.closing := by
  induction block with
  | statement => simp [closing]
  | child outer head name entries ih => simp [closing, ih]

theorem Place.endOfInput_notMem_completion (place : Place) : .endOfInput ∉ place.completion := by
  cases place with
  | entity verb => cases verb <;> simp [completion]
  | name verb entity => cases verb <;> simp [completion]
  | _ => simp [completion, Block.endOfInput_notMem_closing]

/-- Tokens with the given lexemes, all at one place. -/
def tokensOf (lexemes : List Lexeme) : List Token := lexemes.map (⟨·, ⟨0, 0⟩⟩)

@[simp] theorem map_lexeme_tokensOf (lexemes : List Lexeme) :
    (tokensOf lexemes).map Token.lexeme = lexemes := by
  rw [tokensOf, List.map_map]
  exact List.map_id lexemes

namespace Reader

variable (r : Reader)

/-- Closing the open blocks takes a reader between two entries to the end of a file. -/
theorem accepts_closing (block : Block) (a : Bool) :
    (r.goto (.entries block a)).Accepts (tokensOf block.closing) := by
  -- A block that is closed becomes an entry of the one around it, which has as many around it.
  induction hclosing : block.closing generalizing block a with
  | nil => cases block <;> cases hclosing
  | cons lexeme lexemes ih =>
    cases block with
    | statement verb entity name entries =>
      cases hclosing
      refine accepts_cons.2 ⟨r.emit verb entity name entries true, ?_, accepts_nil.2 ⟨true, rfl⟩⟩
      cases a <;> rfl
    | child outer head name entries =>
      obtain ⟨rfl, houter⟩ := List.cons.inj hclosing
      rw [← Block.closing_add (.child head name entries)] at houter
      refine accepts_cons.2 ⟨_, ?_, ih _ true houter⟩
      cases a <;> rfl

/-- Wherever a reader stands, some lexemes take it to the end of a file. -/
theorem accepts_completion : r.Accepts (tokensOf r.place.completion) := by
  obtain ⟨place, package, statements⟩ := r
  -- What is left of an entry or of the line of a statement is read token by token.
  have hentry : ∀ (block : Block) (entry : Entry),
      Accepts ⟨.entryEnd block entry, package, statements⟩
        (tokensOf (.semicolon :: block.closing)) := by
    intro block entry
    refine accepts_cons.2 ⟨_, rfl, ?_⟩
    rw [← Block.closing_add entry]
    exact accepts_closing _ _ _
  have hvalue : ∀ (block : Block) (field : Located String),
      Accepts ⟨.value block field, package, statements⟩
        (tokensOf (.integer 0 :: .semicolon :: block.closing)) := by
    intro block field
    exact accepts_cons.2 ⟨_, rfl, hentry block _⟩
  have hblock : ∀ block : Block,
      Accepts ⟨.blockStart block, package, statements⟩
        (tokensOf (.leftBrace :: block.closing)) := by
    intro block
    exact accepts_cons.2 ⟨_, rfl, accepts_closing _ block false⟩
  have hname : ∀ (verb : Verb) (entity : Located String),
      Accepts ⟨.name verb entity, package, statements⟩
        (tokensOf (Place.name verb entity).completion) := by
    intro verb entity
    cases verb with
    | declare => exact accepts_cons.2 ⟨_, rfl, accepts_cons.2 ⟨_, rfl, accepts_nil.2 ⟨_, rfl⟩⟩⟩
    | _ => exact accepts_cons.2 ⟨_, rfl, hblock (.statement _ entity _ [])⟩
  cases place with
  | between a => exact accepts_nil.2 ⟨a, rfl⟩
  | package => exact accepts_cons.2 ⟨_, rfl, accepts_cons.2 ⟨_, rfl, accepts_nil.2 ⟨_, rfl⟩⟩⟩
  | packageEnd name => exact accepts_cons.2 ⟨_, rfl, accepts_nil.2 ⟨_, rfl⟩⟩
  | entity verb => cases verb <;> exact accepts_cons.2 ⟨_, rfl, hname _ ⟨"E", ⟨0, 0⟩⟩⟩
  | name verb entity => exact hname verb entity
  | declareEnd entity name => exact accepts_cons.2 ⟨_, rfl, accepts_nil.2 ⟨_, rfl⟩⟩
  | blockStart block => exact hblock block
  | entries block a => exact accepts_closing ⟨.entries block a, package, statements⟩ block a
  | head block head => exact accepts_cons.2 ⟨_, rfl, hvalue block head⟩
  | value block field => exact hvalue block field
  | entryEnd block entry => exact hentry block entry
  | target block field targets => exact accepts_cons.2 ⟨_, rfl, hentry block _⟩
  | targetEnd block field targets => exact accepts_cons.2 ⟨_, rfl, hentry block _⟩

/-! ## Beginnings of sentences -/

/-- Tokens that a reader has read are the beginning of a sentence. -/
theorem exists_sentence_of_run {ts : List Token} (h : start.run ts = .ok r)
    (hts : ∀ t ∈ ts, t.lexeme ≠ .endOfInput) :
    ∃ more, Sentence (ts.map Token.lexeme ++ more) := by
  obtain ⟨q, a, hrest, hq⟩ := r.accepts_completion
  have haccepts : start.Accepts (ts ++ tokensOf r.place.completion) := by
    refine ⟨q, a, ?_, hq⟩
    rw [run_append, h]
    exact hrest
  have hall : ∀ t ∈ ts ++ tokensOf r.place.completion, t.lexeme ≠ .endOfInput := by
    intro t ht
    rcases List.mem_append.1 ht with ht | ht
    · exact hts t ht
    · intro hend
      have hmem : t.lexeme ∈ (tokensOf r.place.completion).map Token.lexeme := List.mem_map_of_mem ht
      rw [map_lexeme_tokensOf, hend] at hmem
      exact r.place.endOfInput_notMem_completion hmem
  obtain ⟨d, hd⟩ := (accepts_start_iff hall).1 haccepts
  exact ⟨r.place.completion, d, by rw [hd, List.map_append, map_lexeme_tokensOf]⟩

/-- The tokens of a sentence are read one by one. -/
theorem exists_step?_of_sentence {ts : List Token} {t : Token} {more : List Lexeme}
    (h : start.run ts = .ok r) (hmore : Sentence (ts.map Token.lexeme ++ t.lexeme :: more)) :
    ∃ r', r.step? t = some r' := by
  obtain ⟨d, hd⟩ := hmore
  obtain ⟨a, package, hrun⟩ := run_derivation d
  -- The derivation may place its tokens elsewhere, which does not matter.
  have hlexemes : (ts ++ t :: tokensOf more).map Token.lexeme = d.tokens.map Token.lexeme := by
    rw [hd, List.map_append, List.map_cons, map_lexeme_tokensOf]
  obtain ⟨q, hq, -⟩ := exists_run_of_lexemes hlexemes hrun
  rw [run_append, h] at hq
  have hstep : (r.step t).bind (run · (tokensOf more)) = .ok q := hq
  rw [step] at hstep
  cases hr : r.step? t with
  | none => rw [hr] at hstep; cases hstep
  | some r' => exact ⟨r', rfl⟩

/-- A reader fails at a token that cannot stand where it is. -/
theorem exists_of_run_eq_error {r : Reader} {ts : List Token} {e : SyntaxError}
    (h : r.run ts = .error e) :
    ∃ before t after q, ts = before ++ t :: after ∧ r.run before = .ok q ∧ q.step? t = none ∧
      e = .unexpected q.place.expected t := by
  induction ts generalizing r with
  | nil => cases h
  | cons t ts ih =>
    rw [run_cons, step] at h
    cases hstep : r.step? t with
    | none =>
      rw [hstep] at h
      cases h
      exact ⟨[], t, ts, r, rfl, rfl, hstep, rfl⟩
    | some r' =>
      rw [hstep] at h
      obtain ⟨before, u, after, q, rfl, hbefore, hu, he⟩ := ih h
      exact ⟨t :: before, u, after, q, rfl, (run_of_step? hstep before).trans hbefore, hu, he⟩

end Reader

/-! ## Errors -/

namespace Statement

/-- **A syntax error points at the first token that cannot stand where it is.** If the tokens of a
text cannot be read, the error is at one of them: those in front of it are the beginning of a
sentence, but no sentence goes on with it, and if it is the end of input, those in front of it are no
sentence. -/
theorem parse_error_exact {text : String} {tokens : List Token} {e : SyntaxError}
    (htokens : tokenize text = .ok tokens) (herror : parse text = .error e) :
    ∃ before t after, tokens = before ++ t :: after ∧ (∃ expected, e = .unexpected expected t) ∧
      e.span = t.span ∧ (∃ more, Sentence (before.map Token.lexeme ++ more)) ∧
      (∀ more, ¬Sentence (before.map Token.lexeme ++ t.lexeme :: more)) ∧
      (t.lexeme = .endOfInput → ¬Sentence (before.map Token.lexeme)) := by
  rw [parse_of_tokenize htokens, map_eq_error] at herror
  obtain ⟨before, t, after, q, rfl, hbefore, hstep, rfl⟩ := Reader.exists_of_run_eq_error herror
  have hfront : ∀ u ∈ before, u.lexeme ≠ .endOfInput := by
    obtain ⟨front, stop, hsplit, hfront⟩ := exists_front_of_tokensFrom htokens
    have hdrop := congrArg List.dropLast hsplit
    rw [List.dropLast_concat, List.dropLast_append_of_ne_nil (List.cons_ne_nil t after)] at hdrop
    intro u hu
    exact hfront u (hdrop ▸ List.mem_append_left _ hu)
  refine ⟨before, t, after, rfl, ⟨_, rfl⟩, rfl, q.exists_sentence_of_run hbefore hfront, ?_, ?_⟩
  · intro more hmore
    obtain ⟨r', hr'⟩ := q.exists_step?_of_sentence hbefore hmore
    cases hstep.symm.trans hr'
  · rintro hend ⟨d, hd⟩
    have hlexemes : (before ++ [t]).map Token.lexeme =
        d.tokens.map Token.lexeme ++ [.endOfInput] := by
      rw [List.map_append, hd, List.map_singleton, hend]
    obtain ⟨r, hr, -⟩ := exists_run_of_derivation hlexemes
    rw [Reader.run_append, hbefore] at hr
    have hone : (q.step t).bind (Reader.run · []) = .ok r := hr
    rw [Reader.step, hstep] at hone
    cases hone

/-- A text that breaks off in a list of links, within two blocks. -/
def brokenList : String := "create A b \x7b c d \x7b e: [f, g h] ; \x7d; \x7d"

set_option maxRecDepth 4000 in
theorem parse_error_exact_brokenList :
    ∃ tokens before after, tokenize brokenList = .ok tokens ∧
      parse brokenList =
        .error (.unexpected (.mark .rightBracket) ⟨.word "h", ⟨28, 29⟩⟩) ∧
      tokens = before ++ ⟨.word "h", ⟨28, 29⟩⟩ :: after ∧
      (∃ more, Sentence (before.map Token.lexeme ++ more)) ∧
      ∀ more, ¬Sentence (before.map Token.lexeme ++ .word "h" :: more) := by
  have htext : parse brokenList = _ := parse_ofList _
  have hread : (parse brokenList).map (fun _ => ()) =
      .error (.unexpected (.mark .rightBracket) ⟨.word "h", ⟨28, 29⟩⟩) := by
    rw [htext]
    decide +kernel
  have herror := map_eq_error.1 hread
  cases htokens : tokenize brokenList with
  | error e => simp [parse, htokens] at herror
  | ok tokens =>
    obtain ⟨before, t, after, rfl, ⟨expected, he⟩, -, hbefore, hnone, -⟩ :=
      parse_error_exact htokens herror
    cases he
    exact ⟨_, before, after, rfl, herror, rfl, hbefore, hnone⟩

end Statement

end Metamodel
