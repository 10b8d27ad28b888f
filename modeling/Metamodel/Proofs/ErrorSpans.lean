import Metamodel.Proofs.Bytewise
import Metamodel.Proofs.SyntaxErrors
import Metamodel.Proofs.TokenTiling

set_option autoImplicit false

/-! # Spans of errors

Whatever a text is, it is read to its end or up to an error without a read outside of it, and the
span of the error is one that can be shown in the text (`tokenize_safe`). Only within comments are
bytes read at which no character begins (`tokenize_everywhere_comment`).

A lexical error is about characters of the text: those of the comment mark, the quote, the escape,
the integer or the single character that it names (`Span.Covers`). A scan reports them from its own
first character on (`covers_of_scan`), and what has been read before shifts them to their place
(`Span.Covers.shift`). Every other error has the span of a token, so it is empty at the end of input
and nowhere else. -/

namespace Metamodel

/-! ## Characters that a span covers -/

namespace Span

/-- The span covers one or more of the characters. -/
def Covers (span : Span) (cs : List Char) : Prop :=
  ∃ before cut after, cs = before ++ cut ++ after ∧ cut ≠ [] ∧
    span = ⟨byteLength before, byteLength (before ++ cut)⟩

variable {span : Span} {text : String}

theorem Covers.shift {cs : List Char} (h : span.Covers cs) (front : List Char) :
    (span.shift (byteLength front)).Covers (front ++ cs) := by
  obtain ⟨before, cut, after, rfl, hcut, rfl⟩ := h
  refine ⟨front ++ before, cut, after, by simp, hcut, ?_⟩
  simp [Span.shift]

theorem Covers.within (h : span.Covers text.toList) : span.Within text := by
  obtain ⟨before, cut, after, htext, -, rfl⟩ := h
  have hholds : Holds ⟨byteLength before, byteLength (before ++ cut)⟩ text (String.ofList cut) :=
    holds_of_toList htext rfl rfl
  exact hholds.within

theorem Covers.start_lt_stop {cs : List Char} (h : span.Covers cs) : span.start < span.stop := by
  obtain ⟨before, cut, after, -, hcut, rfl⟩ := h
  have hpos := byteLength_pos hcut
  simp only [byteLength_append]
  omega

end Span

/-! ## Lexical errors -/

theorem QuoteBody.cons_eq_badEscape {b : QuoteBody} {c d : Char} {taken before : List Char}
    (h : b.cons c taken = .badEscape before d) :
    ∃ front, b = .badEscape front d ∧ before = taken ++ front := by
  cases b with
  | closed => cases h
  | unclosed => cases h
  | badEscape front d' =>
    cases h
    exact ⟨front, rfl, rfl⟩

/-- The bad escape stands behind what has been read. -/
theorem exists_of_scanQuote_badEscape {cs before : List Char} {c : Char}
    (h : scanQuote cs = .badEscape before c) : ∃ after, cs = before ++ '\\' :: c :: after := by
  induction cs using scanQuote.induct generalizing before with
  | case1 => cases h
  | case2 => cases h
  | case3 => cases h
  | case4 => cases h
  | case5 d cs d' hd ih =>
    simp only [scanQuote, hd] at h
    obtain ⟨front, hbody, rfl⟩ := QuoteBody.cons_eq_badEscape h
    obtain ⟨after, rfl⟩ := ih hbody
    exact ⟨after, rfl⟩
  | case6 d cs hd =>
    simp only [scanQuote, hd] at h
    cases h
    exact ⟨cs, rfl⟩
  | case7 d cs hquote hfeed hlast hescape ih =>
    have hbackslash := ne_backslash_of_not_escape hlast hescape
    rw [scanQuote_cons hquote hfeed hbackslash] at h
    obtain ⟨front, hbody, rfl⟩ := QuoteBody.cons_eq_badEscape h
    obtain ⟨after, rfl⟩ := ih hbody
    exact ⟨after, rfl⟩

/-- An error that a scan reports is about characters from the first one on. -/
theorem covers_of_scan {c : Char} {cs : List Char} {e : LexicalError} (h : scan c cs = .error e) :
    e.span.Covers (c :: cs) := by
  unfold scan at h
  split at h
  · cases h
  split at h
  · next hslash =>
    subst hslash
    unfold scanSlash at h
    split at h
    · cases h
    · next rest =>
      split at h <;> cases h
      exact ⟨[], ['/', '*'], rest, rfl, by simp, rfl⟩
    · cases h
      exact ⟨[], ['/'], cs, rfl, by simp, rfl⟩
  split at h
  · cases h
  split at h
  · next hquote =>
    subst hquote
    unfold scanQuoted at h
    split at h
    · cases h
    · cases h
      exact ⟨[], ['"'], cs, rfl, by simp, rfl⟩
    · next before d hbody =>
      cases h
      obtain ⟨after, rfl⟩ := exists_of_scanQuote_badEscape hbody
      have hquote : byteLength ('"' :: before) = 1 + byteLength before := rfl
      have hescape : byteLength ['\\', d] = 1 + d.utf8Size := rfl
      refine ⟨'"' :: before, ['\\', d], after, by simp, by simp, ?_⟩
      rw [byteLength_append, hquote, hescape, ← Nat.add_assoc]
  split at h
  · simp only [scanInteger] at h
    split at h <;> cases h
    exact ⟨[], [c] ++ cs.takeWhile Char.isDigit, cs.dropWhile Char.isDigit, by simp, by simp, rfl⟩
  split at h
  · cases h
  · cases h
    exact ⟨[], [c], cs, rfl, by simp, rfl⟩

theorem covers_of_tokensFrom {front cs : List Char} {e : LexicalError}
    (h : tokensFrom (byteLength front) cs = .error e) : e.span.Covers (front ++ cs) := by
  induction cs using scan_induction generalizing front with
  | nil =>
    rw [tokensFrom] at h
    cases h
  | error c cs e' hscan =>
    rw [tokensFrom_of_error _ hscan] at h
    cases h
    exact (covers_of_scan hscan).shift front
  | piece c cs p hscan ih =>
    have hrest : tokensFrom (byteLength (front ++ p.taken)) p.rest = .error e := by
      rw [byteLength_append]
      cases hp : p.lexeme with
      | none => rwa [tokensFrom_of_gap _ hscan hp] at h
      | some l => rwa [tokensFrom_of_lexeme _ hscan hp, map_eq_error] at h
    have hcovers := ih hrest
    rwa [List.append_assoc, taken_append_rest hscan] at hcovers

/-- A lexical error is about characters of the text. -/
theorem covers_of_tokenize {text : String} {e : LexicalError} (h : tokenize text = .error e) :
    e.span.Covers text.toList := by
  have hcovers : e.span.Covers ([] ++ text.toList) := covers_of_tokensFrom h
  exact hcovers

/-! ## All errors -/

namespace Span

variable {span : Span} {text : String}

theorem isEmpty_iff : span.isEmpty = true ↔ span.start = span.stop := beq_iff_eq

theorem Covers.isEmpty_eq_false {cs : List Char} (h : span.Covers cs) : span.isEmpty = false := by
  rw [Bool.eq_false_iff, Ne, isEmpty_iff]
  exact h.start_lt_stop.ne

theorem Within.start_add_length (h : span.Within text) : span.start + span.length = span.stop :=
  Nat.add_sub_cancel' h.ordered

/-- There is nothing behind the end of the text. -/
theorem Within.isEmpty_of_start_eq (h : span.Within text) (hstart : span.start = text.utf8ByteSize) :
    span.isEmpty = true := by
  have hordered := h.ordered
  have hbounds := h.inBounds
  exact isEmpty_iff.2 (by omega)

end Span

/-- The end of input has been found at the end of the text. -/
theorem Tiling.eq_of_endOfInput {text : String} {ts : List Token} (h : Tiling text ts) {t : Token}
    (ht : t ∈ ts) (hl : t.lexeme = .endOfInput) :
    t = ⟨.endOfInput, ⟨text.utf8ByteSize, text.utf8ByteSize⟩⟩ := by
  obtain ⟨front, rfl, hfront⟩ := h.closed
  rcases List.mem_append.1 ht with ht | ht
  · exact absurd hl (hfront t ht)
  · exact List.mem_singleton.1 ht

/-- An error of reading is a lexical one or is about a token. -/
theorem Statement.parse_error_cases {text : String} {e : SyntaxError} (h : parse text = .error e) :
    (∃ e', tokenize text = .error e' ∧ e = .lexical e') ∨
      ∃ tokens, tokenize text = .ok tokens ∧ ∃ t ∈ tokens, ∃ expected, e = .unexpected expected t := by
  cases htokens : tokenize text with
  | error e' =>
    rw [parse, htokens] at h
    cases h
    exact .inl ⟨e', rfl, rfl⟩
  | ok tokens =>
    obtain ⟨before, t, after, rfl, ⟨expected, rfl⟩, -⟩ := parse_error_exact htokens h
    exact .inr ⟨_, rfl, t, by simp, expected, rfl⟩

/-- Not every byte is read where a character begins: of a character in a comment all bytes are read. A
scanner that refuses this has no result, and it is the read within the character that makes it fail,
since without it there is a result. -/
theorem tokenize_everywhere_comment :
    Bytewise.tokenize .everywhere "/*é*/" = none ∧
      Bytewise.tokenize .outsideComments "/*é*/" = some (tokenize "/*é*/") ∧
      Bytewise.byteAt "/*é*/" 3 ≠ none ∧ Bytewise.firstByteAt "/*é*/" 3 = none :=
  ⟨by decide +kernel, Bytewise.tokenize_eq _, by decide +kernel, by decide +kernel⟩

/-- **Reading is safe, and so are the spans of errors.** Every text is read to the end or up to an
error: each byte that is read lies in the text, a character begins there unless the byte is within a
comment, and what is cut out of the text begins and ends between characters, since otherwise the
scanner would have no result. A lexical error has characters of its own. Every error of reading lies
in the text, between characters, with its end not in front of its start; it is empty at the end of
the text and nowhere else, and that is where the end of input has been found. -/
theorem tokenize_safe (text : String) :
    Bytewise.tokenize .outsideComments text = some (tokenize text) ∧
    (∀ e, tokenize text = .error e → e.span.Within text ∧ e.span.isEmpty = false) ∧
    ∀ e, Statement.parse text = .error e →
      e.span.Within text ∧ e.span.start + e.span.length = e.span.stop ∧
        (e.span.isEmpty = true ↔ e.span.start = text.utf8ByteSize) ∧
        (e.span.isEmpty = true ↔ ∃ expected, e =
          .unexpected expected ⟨.endOfInput, ⟨text.utf8ByteSize, text.utf8ByteSize⟩⟩) := by
  refine ⟨Bytewise.tokenize_eq text, ?_, ?_⟩
  · intro e he
    have hcovers := covers_of_tokenize he
    exact ⟨hcovers.within, hcovers.isEmpty_eq_false⟩
  intro e herror
  have hspan : e.span.Within text ∧ (e.span.isEmpty = true ↔ ∃ expected, e =
      .unexpected expected ⟨.endOfInput, ⟨text.utf8ByteSize, text.utf8ByteSize⟩⟩) := by
    rcases Statement.parse_error_cases herror with
      ⟨e', htokens, rfl⟩ | ⟨tokens, htokens, t, ht, expected, rfl⟩
    · have hcovers := covers_of_tokenize htokens
      refine ⟨hcovers.within, iff_of_false (Bool.eq_false_iff.1 hcovers.isEmpty_eq_false) ?_⟩
      rintro ⟨expected, he⟩
      cases he
    · have htiling := tokenize_tiling htokens
      refine ⟨htiling.within t ht, ?_⟩
      constructor
      · intro hempty
        rw [htiling.eq_of_endOfInput ht ((htiling.isEmpty_iff t ht).1 hempty)]
        exact ⟨expected, rfl⟩
      · rintro ⟨expected', he⟩
        cases he
        exact Span.isEmpty_iff.2 rfl
  obtain ⟨hwithin, hempty⟩ := hspan
  refine ⟨hwithin, hwithin.start_add_length, ?_, hempty⟩
  constructor
  · intro h
    obtain ⟨expected, rfl⟩ := hempty.1 h
    rfl
  · exact hwithin.isEmpty_of_start_eq

/-- A text with an unknown escape behind a comment and other characters of several bytes. -/
def oddEscape : String := "/* é* */ name \"日本\\語\""

/-- A text that ends in a comment. -/
def unnamedText : String := "create // é"

set_option maxRecDepth 4000 in
theorem tokenize_safe_oddEscape :
    (Bytewise.tokenize .outsideComments oddEscape = some (.error ⟨.unknownEscape '語', ⟨22, 26⟩⟩) ∧
      Span.Within ⟨22, 26⟩ oddEscape) ∧
    Statement.parse unnamedText = .error (.unexpected .entityName ⟨.endOfInput, ⟨12, 12⟩⟩) ∧
      Span.Within ⟨12, 12⟩ unnamedText := by
  have hodd : tokenize oddEscape = .error ⟨.unknownEscape '語', ⟨22, 26⟩⟩ := by
    have htext : tokenize oddEscape = tokensFrom 0 _ :=
      congrArg (tokensFrom 0) String.toList_ofList
    rw [htext]
    decide +kernel
  have hunnamed : Statement.parse unnamedText =
      .error (.unexpected .entityName ⟨.endOfInput, ⟨12, 12⟩⟩) := by
    have htext : Statement.parse unnamedText = _ := Statement.parse_ofList _
    have hread : (Statement.parse unnamedText).map (fun _ => ()) =
        .error (.unexpected .entityName ⟨.endOfInput, ⟨12, 12⟩⟩) := by
      rw [htext]
      decide +kernel
    exact map_eq_error.1 hread
  obtain ⟨hbytes, hlexical, -⟩ := tokenize_safe oddEscape
  obtain ⟨-, -, hparse⟩ := tokenize_safe unnamedText
  rw [hodd] at hbytes
  exact ⟨⟨hbytes, (hlexical _ hodd).1⟩, hunnamed, (hparse _ hunnamed).1⟩

end Metamodel
