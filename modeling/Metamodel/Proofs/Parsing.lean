import Metamodel.Proofs.Derivations
import Metamodel.Proofs.Loading
import Metamodel.Proofs.Relocation

set_option autoImplicit false

/-! # Reading is parsing

The reader accepts exactly the texts that have a derivation, and gives what their derivation stands
for (`Statement.parse_exact`).

What has a derivation is read: a tree takes the reader from the place in front of its tokens to the
place behind them, whatever follows (`run_value`, `run_body`, `run_items`). For the other direction,
the tokens that take a reader from a place to the end of a file begin with a tree of the symbol that
the place expects (`Accepts.exists_value`, `Accepts.exists_body`, `Accepts.exists_items`); they are
found by induction on the number of tokens. A semicolon that may be left out belongs to the block in
front of it, so what is found behind a block may begin with one. -/

namespace Metamodel

/-! ## Tokens -/

/-- The character begins no gap, no mark and no quoted text. -/
def BeginsLong (c : Char) : Prop :=
  isBlank c = false ∧ c ≠ '/' ∧ Lexeme.ofMark? c = none ∧ c ≠ '"'

/-- The pieces that a text can start with. -/
inductive Scans : Char → List Char → Piece → Prop
  | blank {c : Char} {cs : List Char} (h : isBlank c = true) : Scans c cs ⟨none, [c], cs⟩
  | line {cs : List Char} :
    Scans '/' ('/' :: cs) (Piece.while (· != '\n') ['/', '/'] cs fun _ => none)
  | block {cs taken rest : List Char} (h : splitComment cs = some (taken, rest)) :
    Scans '/' ('*' :: cs) ⟨none, '/' :: '*' :: taken, rest⟩
  | mark {c : Char} {cs : List Char} {l : Lexeme} (h : Lexeme.ofMark? c = some l) :
    Scans c cs ⟨some l, [c], cs⟩
  | quoted {cs text taken rest : List Char} (h : scanQuote cs = .closed text taken rest) :
    Scans '"' cs ⟨some (.quoted (String.ofList text)), '"' :: taken, rest⟩
  /-- An integer starts with a digit or with a minus sign in front of one. -/
  | integer {c : Char} {cs : List Char} {n : Int64} (hc : BeginsLong c)
    (hdigit : c.isDigit = true ∨ (c = '-' ∧ cs.head?.any Char.isDigit = true))
    (h : Lexeme.ofInteger? ([c] ++ cs.takeWhile Char.isDigit) = some (.integer n)) :
    Scans c cs
      ⟨some (.integer n), [c] ++ cs.takeWhile Char.isDigit, cs.dropWhile Char.isDigit⟩
  | word {c : Char} {cs : List Char} (hc : BeginsLong c) (hdigit : c.isDigit = false)
    (h : isWordStart c = true) :
    Scans c cs (Piece.while isWordPart [c] cs fun text => some (.word (String.ofList text)))

theorem exists_of_ofInteger? {text : List Char} {l : Lexeme} (h : Lexeme.ofInteger? text = some l) :
    ∃ n, l = .integer n := by
  simp only [Lexeme.ofInteger?] at h
  split at h <;> cases h
  exact ⟨_, rfl⟩

/-- What is scanned is one of the pieces. -/
theorem scan_eq_ok_iff {c : Char} {cs : List Char} {p : Piece} :
    scan c cs = .ok p ↔ Scans c cs p := by
  constructor
  · intro h
    unfold scan at h
    split at h
    · next hblank =>
      cases h
      exact .blank hblank
    next hblank =>
    split at h
    · next hslash =>
      subst hslash
      unfold scanSlash at h
      split at h
      · cases h
        exact .line
      · split at h <;> cases h
        exact .block ‹_›
      · cases h
    next hslash =>
    split at h
    · next mark hmark =>
      cases h
      exact .mark hmark
    next hmark =>
    split at h
    · next hquote =>
      subst hquote
      unfold scanQuoted at h
      split at h <;> cases h
      exact .quoted ‹_›
    next hquote =>
    have hc : BeginsLong c := ⟨Bool.eq_false_iff.2 hblank, hslash, hmark, hquote⟩
    split at h
    · next hdigit =>
      simp only [scanInteger] at h
      split at h <;> cases h
      next hlexeme =>
      obtain ⟨n, rfl⟩ := exists_of_ofInteger? hlexeme
      exact .integer hc hdigit hlexeme
    next hdigit =>
    split at h
    · next hword =>
      cases h
      exact .word hc (Bool.eq_false_iff.2 (not_or.1 hdigit).1) hword
    · cases h
  · intro h
    cases h with
    | blank hblank => exact if_pos hblank
    | line => rfl
    | block hsplit =>
      rw [scan, if_neg (by decide), if_pos rfl, scanSlash, hsplit]
    | mark hmark =>
      unfold Lexeme.ofMark? at hmark
      split at hmark <;> cases hmark <;> rfl
    | quoted hbody =>
      have hscan : scan '"' cs = scanQuoted cs := rfl
      rw [hscan, scanQuoted, hbody]
    | integer hc hdigit hlexeme =>
      obtain ⟨hblank, hslash, hmark, hquote⟩ := hc
      simp only [scan, hblank, hslash, hmark, hquote, if_pos hdigit, scanInteger, hlexeme]
      rfl
    | word hc hdigit hword =>
      obtain ⟨hblank, hslash, hmark, hquote⟩ := hc
      have hinteger : ¬(c.isDigit = true ∨ (c = '-' ∧ cs.head?.any Char.isDigit = true)) := by
        rintro (h | ⟨rfl, -⟩)
        · exact absurd h (Bool.eq_false_iff.1 hdigit)
        · exact absurd hword (by decide)
      simp only [scan, hblank, hslash, hmark, hquote, if_neg hinteger, if_pos hword]
      rfl

/-- Nothing in a text reads as its end. -/
theorem lexeme_ne_endOfInput {c : Char} {cs : List Char} {p : Piece} (h : scan c cs = .ok p) :
    p.lexeme ≠ some .endOfInput := by
  cases scan_eq_ok_iff.1 h with
  | mark hmark =>
    unfold Lexeme.ofMark? at hmark
    split at hmark <;> cases hmark <;> simp
  | _ => simp [Piece.while]

/-- A text is read piece by piece, up to its end or up to an error. -/
@[elab_as_elim]
theorem scan_induction {motive : List Char → Prop} (nil : motive [])
    (error : ∀ c cs e, scan c cs = .error e → motive (c :: cs))
    (piece : ∀ c cs p, scan c cs = .ok p → motive p.rest → motive (c :: cs)) (cs : List Char) :
    motive cs := by
  induction hlength : cs.length using Nat.strongRecOn generalizing cs with
  | ind n ih =>
    cases cs with
    | nil => exact nil
    | cons c cs =>
      cases hscan : scan c cs with
      | error e => exact error c cs e hscan
      | ok p =>
        have hshorter := rest_length_lt hscan
        exact piece c cs p hscan (ih p.rest.length (hlength ▸ hshorter) p.rest rfl)

/-- A text that starts with a lexeme has the lexeme and the tokens behind it. -/
theorem tokensFrom_of_lexeme {c : Char} {cs : List Char} {p : Piece} {lexeme : Lexeme} (pos : Nat)
    (h : scan c cs = .ok p) (hp : p.lexeme = some lexeme) :
    tokensFrom pos (c :: cs) =
      (tokensFrom (pos + byteLength p.taken) p.rest).map
        (⟨lexeme, ⟨pos, pos + byteLength p.taken⟩⟩ :: ·) := by
  rw [tokensFrom]
  split
  · simp_all
  · next q hq =>
    cases h.symm.trans hq
    simp only [hp]

/-- A text that starts with a gap has the tokens behind it. -/
theorem tokensFrom_of_gap {c : Char} {cs : List Char} {p : Piece} (pos : Nat)
    (h : scan c cs = .ok p) (hp : p.lexeme = none) :
    tokensFrom pos (c :: cs) = tokensFrom (pos + byteLength p.taken) p.rest := by
  rw [tokensFrom]
  split
  · simp_all
  · next q hq =>
    cases h.symm.trans hq
    simp only [hp]

/-- A text that starts with a lexical error has this error. -/
theorem tokensFrom_of_error {c : Char} {cs : List Char} {e : LexicalError} (pos : Nat)
    (h : scan c cs = .error e) : tokensFrom pos (c :: cs) = .error (e.shift pos) := by
  rw [tokensFrom]
  split
  · next e' he =>
    cases h.symm.trans he
    rfl
  · next p hp => cases h.symm.trans hp

/-- Piece by piece, a text that starts `pos` bytes into the source has these tokens. -/
inductive Tokenized : Nat → List Char → List Token → Prop
  | nil (pos : Nat) : Tokenized pos [] [⟨.endOfInput, ⟨pos, pos⟩⟩]
  | lexeme {pos : Nat} {c : Char} {cs : List Char} {p : Piece} {lexeme : Lexeme} {ts : List Token}
    (h : scan c cs = .ok p) (hp : p.lexeme = some lexeme)
    (hrest : Tokenized (pos + byteLength p.taken) p.rest ts) :
    Tokenized pos (c :: cs) (⟨lexeme, ⟨pos, pos + byteLength p.taken⟩⟩ :: ts)
  | gap {pos : Nat} {c : Char} {cs : List Char} {p : Piece} {ts : List Token}
    (h : scan c cs = .ok p) (hp : p.lexeme = none)
    (hrest : Tokenized (pos + byteLength p.taken) p.rest ts) : Tokenized pos (c :: cs) ts

theorem tokenized_iff {pos : Nat} {cs : List Char} {ts : List Token} :
    Tokenized pos cs ts ↔ tokensFrom pos cs = .ok ts := by
  constructor
  · intro h
    induction h with
    | nil pos => rw [tokensFrom]
    | lexeme h hp _ ih => rw [tokensFrom_of_lexeme _ h hp, ih, Except.map]
    | gap h hp _ ih => rw [tokensFrom_of_gap _ h hp, ih]
  · intro h
    induction pos, cs using tokensFrom.induct generalizing ts with
    | case1 pos =>
      rw [tokensFrom] at h
      cases h
      exact .nil pos
    | case2 pos c cs e he =>
      rw [tokensFrom] at h
      split at h <;> simp_all
    | case3 pos c cs p hp next lexeme hlexeme =>
      rename_i ih
      rw [tokensFrom_of_lexeme pos hp hlexeme, map_eq_ok] at h
      obtain ⟨us, hus, rfl⟩ := h
      exact .lexeme hp hlexeme (ih hus)
    | case4 pos c cs p hp next hlexeme =>
      rename_i ih
      rw [tokensFrom_of_gap pos hp hlexeme] at h
      exact .gap hp hlexeme (ih h)

/-- The tokens of a text are closed by the end of input, which stands nowhere else. -/
theorem exists_front_of_tokensFrom {pos : Nat} {cs : List Char} {ts : List Token}
    (h : tokensFrom pos cs = .ok ts) :
    ∃ front stop, ts = front ++ [⟨.endOfInput, stop⟩] ∧
      ∀ t ∈ front, t.lexeme ≠ .endOfInput := by
  rw [← tokenized_iff] at h
  induction h with
  | nil pos => exact ⟨[], _, rfl, by simp⟩
  | lexeme hscan hp _ ih =>
    obtain ⟨front, stop, rfl, hfront⟩ := ih
    refine ⟨_ :: front, stop, rfl, List.forall_mem_cons.2 ⟨?_, hfront⟩⟩
    exact fun he => lexeme_ne_endOfInput hscan (hp.trans (congrArg some he))
  | gap _ _ _ ih => exact ih

/-! ## Trees are read -/

/-- The block with some more entries. -/
def Block.addAll (block : Block) (entries : List Entry) : Block :=
  entries.foldl (fun block entry => block.add entry) block

theorem Block.addAll_statement (verb : Verb) (entity name : Located String)
    (before entries : List Entry) :
    (Block.statement verb entity name before).addAll entries =
      .statement verb entity name (before ++ entries) := by
  induction entries generalizing before with
  | nil => simp [addAll]
  | cons e es ih => exact (ih (before ++ [e])).trans (by simp)

theorem Block.addAll_child (outer : Block) (head name : Located String)
    (before entries : List Entry) :
    (Block.child outer head name before).addAll entries =
      .child outer head name (before ++ entries) := by
  induction entries generalizing before with
  | nil => simp [addAll]
  | cons e es ih => exact (ih (before ++ [e])).trans (by simp)

namespace Reader

variable (r : Reader) (block : Block) (field : Located String) (rest : List Token)

theorem run_of_step? {r r' : Reader} {t : Token} (h : r.step? t = some r') (ts : List Token) :
    r.run (t :: ts) = r'.run ts := by
  rw [run_cons, step, h]
  rfl

theorem run_keys (more : List (Span × Located String)) (trailing : Option Span) (close : Span)
    (targets : List (Located String)) :
    (r.goto (.targetEnd block field targets)).run
        (KeyList.tailTokens more trailing ++ ⟨.rightBracket, close⟩ :: rest) =
      (r.goto (.entryEnd block (.links field (targets ++ more.map Prod.snd)))).run rest := by
  induction more generalizing targets with
  | nil => cases trailing <;> simp [KeyList.tailTokens, run_cons, step, step?, goto, Except.bind]
  | cons k more ih =>
    have hkey := ih (targets ++ [k.2])
    rw [List.append_assoc] at hkey
    exact hkey

theorem run_value (v : ValueTree) :
    (r.goto (.value block field)).run (v.tokens ++ rest) =
      (r.goto (.entryEnd block (v.entry field))).run rest := by
  cases v with
  | literal v =>
    obtain ⟨v, span⟩ := v
    cases v with
    | flag b => cases b <;> rfl
    | _ => rfl
  | key target hw =>
    apply run_of_step?
    simp only [step?, goto, openValue, Located.token, if_neg hw.1, if_neg hw.2, ValueTree.entry]
  | list leftBracket keys rightBracket =>
    cases keys with
    | none => rfl
    | some ks =>
      simp only [ValueTree.tokens, Option.elim_some, KeyList.tokens, List.cons_append,
        List.append_assoc, List.nil_append]
      exact run_keys r block field rest ks.more ks.trailing rightBracket [ks.first]

mutual

theorem run_entry (block : Block) (a : Bool) :
    ∀ e : EntryTree, ∃ a', ∀ rest,
      (r.goto (.entries block a)).run (e.tokens ++ rest) =
        (r.goto (.entries (block.add e.entry) a')).run rest
  | .assign field colon value semicolon => by
    refine ⟨false, fun rest => ?_⟩
    simp only [EntryTree.tokens, List.cons_append, List.append_assoc, List.nil_append]
    exact run_value r block field (⟨.semicolon, semicolon⟩ :: rest) value
  | .child head name leftBrace body close semicolon => by
    obtain ⟨a', hbody⟩ := run_body (.child block head name []) false body
    refine ⟨semicolon.isNone, fun rest => ?_⟩
    simp only [EntryTree.tokens, List.cons_append, List.append_assoc]
    refine (hbody _).trans ?_
    rw [Block.addAll_child, List.nil_append]
    cases semicolon <;> rfl

theorem run_body (block : Block) (a : Bool) :
    ∀ es : List EntryTree, ∃ a', ∀ rest,
      (r.goto (.entries block a)).run (EntryTree.bodyTokens es ++ rest) =
        (r.goto (.entries (block.addAll (EntryTree.bodyEntries es)) a')).run rest
  | [] => ⟨a, fun rest => rfl⟩
  | e :: es => by
    obtain ⟨a', hentry⟩ := run_entry block a e
    obtain ⟨a'', hbody⟩ := run_body (block.add e.entry) a' es
    refine ⟨a'', fun rest => ?_⟩
    rw [EntryTree.bodyTokens, List.append_assoc, hentry, hbody]
    rfl

end

theorem run_items (package : Option String) (statements : List Statement) (a : Bool) :
    ∀ d : Derivation, ∃ a' package',
      (⟨.between a, package, statements⟩ : Reader).run d.tokens =
        .ok ⟨.between a', package', statements ++ d.statementsIn package⟩
  | [] => ⟨a, package, by simp [Derivation.tokens, Derivation.statementsIn]⟩
  | .package keyword name semicolon :: d => by
    obtain ⟨a', package', h⟩ := run_items (some name.value) statements false d
    refine ⟨a', package', ?_⟩
    cases a <;> exact h
  | .block verb hverb keyword entity name leftBrace body close semicolon :: d => by
    obtain ⟨a₁, hbody⟩ := run_body ⟨.between a, package, statements⟩
      (.statement verb entity name []) false body
    obtain ⟨a', package', h⟩ := run_items package
      (statements ++ [⟨verb, package, entity, name, EntryTree.bodyEntries body⟩])
      semicolon.isNone d
    rw [List.append_assoc, List.singleton_append] at h
    refine ⟨a', package', Eq.trans ?_ h⟩
    have hstart := hbody (⟨.rightBrace, close⟩ :: (semicolonTokens semicolon ++ Derivation.tokens d))
    rw [Block.addAll_statement, List.nil_append] at hstart
    simp only [Derivation.tokens, List.flatMap_cons, ItemTree.tokens, List.cons_append,
      List.append_assoc]
    cases verb with
    | declare => exact absurd rfl hverb
    | create =>
      cases a <;> refine hstart.trans ?_ <;> cases semicolon <;> rfl
    | alter =>
      cases a <;> refine hstart.trans ?_ <;> cases semicolon <;> rfl
  | .declare keyword entity name semicolon :: d => by
    obtain ⟨a', package', h⟩ := run_items package
      (statements ++ [⟨.declare, package, entity, name, []⟩]) false d
    rw [List.append_assoc, List.singleton_append] at h
    refine ⟨a', package', Eq.trans ?_ h⟩
    cases a <;> rfl

/-- A file that has a derivation is read to the statements the derivation stands for. -/
theorem run_derivation (d : Derivation) :
    ∃ a package, start.run d.tokens = .ok ⟨.between a, package, d.statements⟩ :=
  run_items none [] false d

end Reader

/-! ## What is read is a tree -/

namespace Reader

/-- The tokens take the reader to the end of a file. -/
def Accepts (r : Reader) (ts : List Token) : Prop := ∃ q a, r.run ts = .ok q ∧ q.place = .between a

theorem accepts_nil {r : Reader} : r.Accepts [] ↔ ∃ a, r.place = .between a := by
  simp [Accepts]

theorem accepts_cons {r : Reader} {t : Token} {ts : List Token} :
    r.Accepts (t :: ts) ↔ ∃ r', r.step? t = some r' ∧ r'.Accepts ts := by
  simp only [Accepts, run_cons, step]
  cases r.step? t with
  | none => simp [Except.bind]
  | some r' => simp [Except.bind]

/-- A reader that does not stand between statements needs one more token. -/
theorem Accepts.exists_step {r : Reader} {ts : List Token} (h : r.Accepts ts)
    (hr : ∀ a, r.place ≠ .between a) :
    ∃ t us r', ts = t :: us ∧ r.step? t = some r' ∧ r'.Accepts us := by
  cases ts with
  | nil =>
    obtain ⟨a, ha⟩ := accepts_nil.1 h
    exact absurd ha (hr a)
  | cons t us =>
    obtain ⟨r', hstep, hus⟩ := accepts_cons.1 h
    exact ⟨t, us, r', rfl, hstep, hus⟩

/-- Tokens that are read as others take the reader to the end if the others do. -/
theorem Accepts.congr {r r' : Reader} {ts us : List Token} (h : r.Accepts ts)
    (hrun : r.run ts = r'.run us) : r'.Accepts us := by
  rwa [Accepts, ← hrun]

variable {r : Reader} {block : Block} {field : Located String} {ts : List Token}

theorem Accepts.exists_keys :
    (∀ targets, (r.goto (.targetEnd block field targets)).Accepts ts →
      ∃ more trailing close rest,
        ts = KeyList.tailTokens more trailing ++ ⟨.rightBracket, close⟩ :: rest) ∧
    (∀ targets, (r.goto (.target block field targets)).Accepts ts →
      ∃ (ks : Option KeyList) (close : Span) (rest : List Token),
        ts = ks.elim [] KeyList.tokens ++ ⟨.rightBracket, close⟩ :: rest) := by
  induction ts with
  | nil =>
    constructor <;>
    · intro targets h
      simp [accepts_nil, goto] at h
  | cons t ts ih =>
    obtain ⟨lexeme, span⟩ := t
    constructor
    · intro targets h
      obtain ⟨r', hstep, hts⟩ := accepts_cons.1 h
      cases lexeme with
      | comma =>
        cases hstep
        obtain ⟨ks, close, rest, rfl⟩ := ih.2 targets hts
        cases ks with
        | none => exact ⟨[], some span, close, rest, rfl⟩
        | some ks =>
          refine ⟨(span, ks.first) :: ks.more, ks.trailing, close, rest, ?_⟩
          simp [KeyList.tokens, KeyList.tailTokens]
      | rightBracket => exact ⟨[], none, span, ts, rfl⟩
      | _ => cases hstep
    · intro targets h
      obtain ⟨r', hstep, hts⟩ := accepts_cons.1 h
      cases lexeme with
      | word w =>
        cases hstep
        obtain ⟨more, trailing, close, rest, rfl⟩ := ih.1 _ hts
        exact ⟨some ⟨⟨w, span⟩, more, trailing⟩, close, rest, rfl⟩
      | rightBracket => exact ⟨none, span, ts, rfl⟩
      | _ => cases hstep

theorem Accepts.exists_value (h : (r.goto (.value block field)).Accepts ts) :
    ∃ v semicolon rest, ts = ValueTree.tokens v ++ ⟨.semicolon, semicolon⟩ :: rest ∧
      (r.goto (.entries (block.add (v.entry field)) false)).Accepts rest := by
  have hvalue : ∃ v rest, ts = ValueTree.tokens v ++ rest := by
    obtain ⟨⟨lexeme, span⟩, us, r', rfl, hstep, hus⟩ := h.exists_step (by simp [goto])
    cases lexeme with
    | quoted text => exact ⟨.literal ⟨.text text, span⟩, us, rfl⟩
    | integer n => exact ⟨.literal ⟨.integer n, span⟩, us, rfl⟩
    | word w =>
      by_cases htrue : w = "true"
      · exact ⟨.literal ⟨.flag true, span⟩, us, by rw [htrue]; rfl⟩
      by_cases hfalse : w = "false"
      · exact ⟨.literal ⟨.flag false, span⟩, us, by rw [hfalse]; rfl⟩
      · exact ⟨.key ⟨w, span⟩ ⟨htrue, hfalse⟩, us, rfl⟩
    | leftBracket =>
      cases hstep
      obtain ⟨ks, close, rest, rfl⟩ := Accepts.exists_keys.2 _ hus
      exact ⟨.list span ks close, rest, by simp [ValueTree.tokens]⟩
    | _ => cases hstep
  obtain ⟨v, rest, rfl⟩ := hvalue
  obtain ⟨⟨lexeme, span⟩, us, r', rfl, hstep, hus⟩ :=
    (h.congr (run_value r block field rest v)).exists_step (by simp [goto])
  cases lexeme with
  | semicolon =>
    cases hstep
    exact ⟨v, span, us, rfl, hus⟩
  | _ => cases hstep

/-- Behind the first word of an entry. -/
theorem Accepts.exists_opening {head : Located String}
    (h : (r.goto (.head block head)).Accepts ts) :
    (∃ colon us, ts = ⟨.colon, colon⟩ :: us ∧ (r.goto (.value block head)).Accepts us) ∨
      ∃ name leftBrace us, ts = Located.token name :: ⟨.leftBrace, leftBrace⟩ :: us ∧
        (r.goto (.entries (.child block head name []) false)).Accepts us := by
  obtain ⟨⟨lexeme, span⟩, us, r', rfl, hstep, hus⟩ := h.exists_step (by simp [goto])
  cases lexeme with
  | colon =>
    cases hstep
    exact .inl ⟨span, us, rfl, hus⟩
  | word w =>
    cases hstep
    obtain ⟨⟨lexeme', span'⟩, vs, r'', rfl, hstep', hvs⟩ := hus.exists_step (by simp [goto])
    cases lexeme' with
    | leftBrace =>
      cases hstep'
      exact .inr ⟨⟨w, span⟩, span', vs, rfl, hvs⟩
    | _ => cases hstep'
  | _ => cases hstep

/-- The tokens of a body up to its closing brace. A semicolon may stand in front if a block was
closed there. -/
theorem Accepts.exists_body {a : Bool} (h : (r.goto (.entries block a)).Accepts ts) :
    ∃ semicolon es close rest, (a = false → semicolon = none) ∧
      ts = semicolonTokens semicolon ++
        (EntryTree.bodyTokens es ++ ⟨.rightBrace, close⟩ :: rest) := by
  induction hn : ts.length using Nat.strongRecOn generalizing r block a ts with
  | ind n ih =>
    obtain ⟨⟨lexeme, span⟩, us, r', rfl, hstep, hus⟩ := h.exists_step (by simp [goto])
    simp only [List.length_cons] at hn
    cases lexeme with
    | semicolon =>
      cases a with
      | false => cases hstep
      | true =>
        cases hstep
        obtain ⟨semicolon, es, close, rest, hnone, rfl⟩ := ih us.length (by omega) hus rfl
        obtain rfl := hnone rfl
        exact ⟨some span, es, close, rest, by simp, rfl⟩
    | rightBrace => exact ⟨none, [], span, us, fun _ => rfl, rfl⟩
    | word w =>
      have hhead : (r.goto (.head block ⟨w, span⟩)).Accepts us := by
        cases a <;> (cases hstep; exact hus)
      obtain ⟨colon, vs, rfl, hvs⟩ | ⟨name, leftBrace, vs, rfl, hvs⟩ := hhead.exists_opening
      · obtain ⟨v, semicolon, rest, rfl, hrest⟩ := hvs.exists_value
        simp only [List.length_cons, List.length_append] at hn
        obtain ⟨semicolon', es, close, rest', hnone, rfl⟩ := ih rest.length (by omega) hrest rfl
        obtain rfl := hnone rfl
        refine ⟨none, .assign ⟨w, span⟩ colon v semicolon :: es, close, rest', fun _ => rfl, ?_⟩
        simp [semicolonTokens, EntryTree.bodyTokens, EntryTree.tokens, Located.token]
      · simp only [List.length_cons] at hn
        obtain ⟨semicolon, body, close, rest, hnone, rfl⟩ := ih vs.length (by omega) hvs rfl
        obtain rfl := hnone rfl
        -- Behind the closing brace the reader is back in the outer block.
        obtain ⟨a', hrun⟩ := run_body r (.child block ⟨w, span⟩ name []) false body
        have hclosed := hvs.congr (hrun (⟨.rightBrace, close⟩ :: rest))
        rw [Block.addAll_child] at hclosed
        have hrest : (r.goto (.entries (block.add (.child ⟨w, span⟩ name
            (EntryTree.bodyEntries body))) true)).Accepts rest := by
          cases a' <;> exact hclosed.congr rfl
        simp only [semicolonTokens, Option.toList_none, List.map_nil, List.nil_append,
          List.length_append, List.length_cons] at hn
        obtain ⟨semicolon', es, close', rest', -, rfl⟩ := ih rest.length (by omega) hrest rfl
        refine ⟨none, .child ⟨w, span⟩ name leftBrace body close semicolon' :: es, close', rest',
          fun _ => rfl, ?_⟩
        simp [semicolonTokens, EntryTree.bodyTokens, EntryTree.tokens, Located.token]
    | _ => cases a <;> cases hstep

/-- Behind `package`. -/
theorem Accepts.exists_package (h : (r.goto .package).Accepts ts) :
    ∃ name semicolon rest, ts = Located.token name :: ⟨.semicolon, semicolon⟩ :: rest ∧
      (⟨.between false, some name.value, r.statements⟩ : Reader).Accepts rest := by
  obtain ⟨⟨lexeme, span⟩, us, r', rfl, hstep, hus⟩ := h.exists_step (by simp [goto])
  cases lexeme with
  | word w =>
    cases hstep
    obtain ⟨⟨lexeme', span'⟩, vs, r'', rfl, hstep', hvs⟩ := hus.exists_step (by simp [goto])
    cases lexeme' with
    | semicolon =>
      cases hstep'
      exact ⟨⟨w, span⟩, span', vs, rfl, hvs⟩
    | _ => cases hstep'
  | _ => cases hstep

/-- Behind a verb. -/
theorem Accepts.exists_entity {verb : Verb} (h : (r.goto (.entity verb)).Accepts ts) :
    ∃ entity us, ts = Located.token entity :: us ∧ (r.goto (.name verb entity)).Accepts us := by
  obtain ⟨⟨lexeme, span⟩, us, r', rfl, hstep, hus⟩ := h.exists_step (by simp [goto])
  cases lexeme with
  | word w =>
    cases hstep
    exact ⟨⟨w, span⟩, us, rfl, hus⟩
  | _ => cases hstep

/-- Behind the entity of a declaration. -/
theorem Accepts.exists_declared {entity : Located String}
    (h : (r.goto (.name .declare entity)).Accepts ts) :
    ∃ name semicolon rest, ts = Located.token name :: ⟨.semicolon, semicolon⟩ :: rest ∧
      (r.emit .declare entity name [] false).Accepts rest := by
  obtain ⟨⟨lexeme, span⟩, us, r', rfl, hstep, hus⟩ := h.exists_step (by simp [goto])
  cases lexeme with
  | word w =>
    cases hstep
    obtain ⟨⟨lexeme', span'⟩, vs, r'', rfl, hstep', hvs⟩ := hus.exists_step (by simp [goto])
    cases lexeme' with
    | semicolon =>
      cases hstep'
      exact ⟨⟨w, span⟩, span', vs, rfl, hvs⟩
    | _ => cases hstep'
  | _ => cases hstep

/-- Behind the entity of a statement with a body. -/
theorem Accepts.exists_block {verb : Verb} (hverb : verb ≠ .declare) {entity : Located String}
    (h : (r.goto (.name verb entity)).Accepts ts) :
    ∃ name leftBrace body close rest,
      ts = Located.token name :: ⟨.leftBrace, leftBrace⟩ ::
        (EntryTree.bodyTokens body ++ ⟨.rightBrace, close⟩ :: rest) ∧
      (r.emit verb entity name (EntryTree.bodyEntries body) true).Accepts rest := by
  obtain ⟨⟨lexeme, span⟩, us, r', rfl, hstep, hus⟩ := h.exists_step (by simp [goto])
  cases lexeme with
  | word w =>
    have hname : (r.goto (.blockStart (.statement verb entity ⟨w, span⟩ []))).Accepts us := by
      cases verb with
      | declare => exact absurd rfl hverb
      | _ => cases hstep; exact hus
    obtain ⟨⟨lexeme', span'⟩, vs, r'', rfl, hstep', hvs⟩ := hname.exists_step (by simp [goto])
    cases lexeme' with
    | leftBrace =>
      cases hstep'
      obtain ⟨semicolon, body, close, rest, hnone, rfl⟩ := Accepts.exists_body hvs
      obtain rfl := hnone rfl
      obtain ⟨a', hrun⟩ := run_body r (.statement verb entity ⟨w, span⟩ []) false body
      have hclosed := hvs.congr (hrun (⟨.rightBrace, close⟩ :: rest))
      rw [Block.addAll_statement] at hclosed
      refine ⟨⟨w, span⟩, span', body, close, rest, rfl, ?_⟩
      cases a' <;> exact hclosed.congr rfl
    | _ => cases hstep'
  | _ => cases verb <;> cases hstep

/-- The tokens up to the end of a file. A semicolon may stand in front if a block was closed
there. -/
theorem Accepts.exists_items {a : Bool} (hr : r.place = .between a) (h : r.Accepts ts)
    (hts : ∀ t ∈ ts, t.lexeme ≠ .endOfInput) :
    ∃ (semicolon : Option Span) (d : Derivation), (a = false → semicolon = none) ∧
      ts = semicolonTokens semicolon ++ d.tokens := by
  induction hn : ts.length using Nat.strongRecOn generalizing r a ts with
  | ind n ih =>
    cases ts with
    | nil => exact ⟨none, [], fun _ => rfl, rfl⟩
    | cons t us =>
      obtain ⟨lexeme, span⟩ := t
      obtain ⟨r', hstep, hus⟩ := accepts_cons.1 h
      obtain ⟨place, package, statements⟩ := r
      obtain rfl : place = .between a := hr
      obtain ⟨hne, hmore⟩ := List.forall_mem_cons.1 hts
      simp only [List.length_cons] at hn
      have hblock : ∀ verb ≠ Verb.declare, Accepts ⟨.entity verb, package, statements⟩ us →
          ∃ d : Derivation, ⟨.word verb.keyword, span⟩ :: us = d.tokens := by
        intro verb hverb hus
        obtain ⟨entity, vs, rfl, hvs⟩ :=
          Accepts.exists_entity (r := ⟨.between a, package, statements⟩) hus
        obtain ⟨name, leftBrace, body, close, rest, rfl, hrest⟩ := hvs.exists_block hverb
        simp only [List.length_cons, List.length_append] at hn
        obtain ⟨semicolon, d, -, rfl⟩ :=
          ih rest.length (by omega) rfl hrest (fun t ht => hmore t (by simp [ht])) rfl
        refine ⟨.block verb hverb span entity name leftBrace body close semicolon :: d, ?_⟩
        simp [Derivation.tokens, ItemTree.tokens]
      cases lexeme with
      | semicolon =>
        cases a with
        | false => cases hstep
        | true =>
          cases hstep
          obtain ⟨semicolon, d, hnone, rfl⟩ := ih us.length (by omega) rfl hus hmore rfl
          obtain rfl := hnone rfl
          exact ⟨some span, d, by simp, rfl⟩
      | endOfInput => exact absurd rfl hne
      | word w =>
        have hopen : openStatement ⟨.between a, package, statements⟩ w = some r' := by
          cases a <;> exact hstep
        simp only [openStatement] at hopen
        split_ifs at hopen with hpackage hcreate halter hdeclare <;> cases hopen
        all_goals subst w
        · obtain ⟨name, semicolon, rest, rfl, hrest⟩ := hus.exists_package
          simp only [List.length_cons] at hn
          obtain ⟨semicolon', d, hnone, rfl⟩ :=
            ih rest.length (by omega) rfl hrest (fun t ht => hmore t (by simp [ht])) rfl
          obtain rfl := hnone rfl
          exact ⟨none, .package span name semicolon :: d, fun _ => rfl, rfl⟩
        · obtain ⟨d, hd⟩ := hblock .create (by simp) hus
          exact ⟨none, d, fun _ => rfl, hd⟩
        · obtain ⟨d, hd⟩ := hblock .alter (by simp) hus
          exact ⟨none, d, fun _ => rfl, hd⟩
        · obtain ⟨entity, vs, rfl, hvs⟩ := hus.exists_entity
          obtain ⟨name, semicolon, rest, rfl, hrest⟩ := hvs.exists_declared
          simp only [List.length_cons] at hn
          obtain ⟨semicolon', d, hnone, rfl⟩ :=
            ih rest.length (by omega) rfl hrest (fun t ht => hmore t (by simp [ht])) rfl
          obtain rfl := hnone rfl
          exact ⟨none, .declare span entity name semicolon :: d, fun _ => rfl, rfl⟩
      | _ => cases a <;> cases hstep

/-- Tokens in front of the end of input are read from the start if they have a derivation. -/
theorem accepts_start_iff (hts : ∀ t ∈ ts, t.lexeme ≠ .endOfInput) :
    start.Accepts ts ↔ ∃ d : Derivation, d.tokens = ts := by
  constructor
  · intro h
    obtain ⟨semicolon, d, hnone, rfl⟩ := Accepts.exists_items rfl h hts
    obtain rfl := hnone rfl
    exact ⟨d, rfl⟩
  · rintro ⟨d, rfl⟩
    obtain ⟨a, package, h⟩ := run_derivation d
    exact ⟨_, a, h, rfl⟩

/-- The end of input is taken between statements only, and changes nothing. -/
theorem run_endOfInput_eq_ok {r' : Reader} {stop : Span} :
    r.run [⟨.endOfInput, stop⟩] = .ok r' ↔ r' = r ∧ ∃ a, r.place = .between a := by
  have hstep : r.step? ⟨.endOfInput, stop⟩ = some r' ↔ r' = r ∧ ∃ a, r.place = .between a := by
    obtain ⟨place, package, statements⟩ := r
    cases place with
    | between a => cases a <;> simp [step?, eq_comm]
    | name verb => cases verb <;> simp [step?]
    | entries block a => cases a <;> simp [step?]
    | _ => simp [step?, openValue]
  rw [← hstep, run_cons, step]
  cases r.step? ⟨.endOfInput, stop⟩ <;> simp [Except.bind]

end Reader

/-! ## Texts -/

/-- Tokens with the lexemes of a derivation, and the end of input behind them, are read to the
statements of the derivation, up to places. -/
theorem exists_run_of_derivation {ts : List Token} {d : Derivation}
    (h : ts.map Token.lexeme = d.tokens.map Token.lexeme ++ [.endOfInput]) :
    ∃ q, Reader.start.run ts = .ok q ∧
      q.statements.map Statement.placeless = d.statements.map Statement.placeless := by
  obtain ⟨a, package, hrun⟩ := Reader.run_derivation d
  have hread : Reader.start.run (d.tokens ++ [⟨.endOfInput, ⟨0, 0⟩⟩]) =
      .ok ⟨.between a, package, d.statements⟩ :=
    (Reader.run_append _ _ _).trans
      (bind_eq_ok.2 ⟨_, hrun, Reader.run_endOfInput_eq_ok.2 ⟨rfl, a, rfl⟩⟩)
  have hlexemes : ts.map Token.lexeme =
      (d.tokens ++ [(⟨.endOfInput, ⟨0, 0⟩⟩ : Token)]).map Token.lexeme := by
    rw [h, List.map_append, List.map_singleton]
  exact exists_run_of_lexemes hlexemes hread

theorem Statement.parse_of_tokenize {text : String} {tokens : List Token}
    (h : tokenize text = .ok tokens) :
    Statement.parse text = (Reader.start.run tokens).map Reader.statements := by
  rw [Statement.parse, h]

/-- **The reader accepts exactly the grammar.** The tokens of a text in front of its end can be read
if and only if their lexemes are a sentence; their derivation is the only one, and what is read is
what it stands for. -/
theorem Statement.parse_exact {text : String} {tokens : List Token}
    (h : tokenize text = .ok tokens) :
    ∃ front stop, tokens = front ++ [⟨.endOfInput, stop⟩] ∧
      (∀ t ∈ front, t.lexeme ≠ .endOfInput) ∧
      ((∃ statements, Statement.parse text = .ok statements) ↔
        Sentence (front.map Token.lexeme)) ∧
      (∀ d d' : Derivation, d.tokens = front → d'.tokens = front → d = d') ∧
      ∀ statements, Statement.parse text = .ok statements ↔
        ∃ d : Derivation, d.tokens = front ∧ d.statements = statements := by
  obtain ⟨front, stop, rfl, hfront⟩ := exists_front_of_tokensFrom h
  have hparse : ∀ statements, Statement.parse text = .ok statements ↔
      ∃ d : Derivation, d.tokens = front ∧ d.statements = statements := by
    intro statements
    rw [Statement.parse_of_tokenize h, Reader.run_append, map_eq_ok]
    constructor
    · rintro ⟨r, hr, rfl⟩
      obtain ⟨q, hq, hend⟩ := bind_eq_ok.1 hr
      obtain ⟨rfl, a, ha⟩ := Reader.run_endOfInput_eq_ok.1 hend
      obtain ⟨d, rfl⟩ := (Reader.accepts_start_iff hfront).1 ⟨_, a, hq, ha⟩
      obtain ⟨a', package, hd⟩ := Reader.run_derivation d
      cases hq.symm.trans hd
      exact ⟨d, rfl, rfl⟩
    · rintro ⟨d, rfl, rfl⟩
      obtain ⟨a, package, hd⟩ := Reader.run_derivation d
      exact ⟨_, bind_eq_ok.2 ⟨_, hd, Reader.run_endOfInput_eq_ok.2 ⟨rfl, a, rfl⟩⟩, rfl⟩
  refine ⟨front, stop, rfl, hfront, ?_, fun d d' hd hd' =>
    Derivation.tokens_inj (hd.trans hd'.symm), hparse⟩
  constructor
  · rintro ⟨statements, hstatements⟩
    obtain ⟨d, rfl, -⟩ := (hparse statements).1 hstatements
    exact ⟨d, rfl⟩
  · rintro ⟨d, hd⟩
    -- The derivation may place its tokens elsewhere, which does not matter.
    have hlexemes : (front ++ [(⟨.endOfInput, stop⟩ : Token)]).map Token.lexeme =
        d.tokens.map Token.lexeme ++ [.endOfInput] := by
      rw [hd, List.map_append, List.map_singleton]
    obtain ⟨q, hq, -⟩ := exists_run_of_derivation hlexemes
    exact ⟨q.statements, by rw [Statement.parse_of_tokenize h, hq]; rfl⟩

/-- A text whose names are words that mean something elsewhere. -/
def Statement.wordyText : String :=
  "alter first first \x7b \x7d package package; create create true \x7b true: [true, false,];
    false: false; package package \x7b alter: -1; \x7d; \x7d; declare declare declare;"

set_option maxRecDepth 4000 in
theorem Statement.parse_exact_wordyText :
    ∃ tokens, tokenize wordyText = .ok tokens ∧
      ∃ d : Derivation, (∃ stop, d.tokens ++ [⟨.endOfInput, stop⟩] = tokens) ∧
        d.statements.map (fun s => (s.verb, s.package, s.name.value)) =
          [(.alter, none, "first"), (.create, some "package", "true"),
            (.declare, some "package", "declare")] := by
  have htext : Statement.parse wordyText = _ := Statement.parse_ofList _
  have hread : (Statement.parse wordyText).map
      (List.map fun s => (s.verb, s.package, s.name.value)) =
        .ok [(.alter, none, "first"), (.create, some "package", "true"),
          (.declare, some "package", "declare")] := by
    rw [htext]
    decide +kernel
  obtain ⟨statements, hstatements, hmap⟩ := map_eq_ok.1 hread
  cases htokens : tokenize wordyText with
  | error e => simp [Statement.parse, htokens] at hstatements
  | ok tokens =>
    obtain ⟨front, stop, rfl, -, -, -, hparse⟩ := Statement.parse_exact htokens
    obtain ⟨d, rfl, rfl⟩ := (hparse statements).1 hstatements
    exact ⟨_, rfl, d, ⟨stop, rfl⟩, hmap⟩

end Metamodel
