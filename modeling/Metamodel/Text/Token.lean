import Metamodel.Text.Span

set_option autoImplicit false

/-! # Tokens

Model text is a sequence of lexemes: words, quoted texts, integers and seven marks. Between them
stand blanks, line comments (`//` up to the end of the line) and block comments (`/*` up to the
first `*/`). Words are not told apart further here: whether `create` opens a statement or names a
field is decided by the place it stands in.

`scan` reads one piece (a lexeme or a gap) off the front of a text and hands back the characters it
took and those it left; `tokenize` repeats it and adds up the byte offsets. What was taken and what
was left make up the text (`taken_append_rest`), and something is always taken (`taken_ne_nil`), so
the repetition ends. -/

namespace Metamodel

/-- A unit of meaning of model text. -/
inductive Lexeme
  | word (text : String)
  | quoted (text : String)
  | integer (value : Int64)
  | leftBrace
  | rightBrace
  | leftBracket
  | rightBracket
  | colon
  | semicolon
  | comma
  /-- The end of the text, behind all other lexemes. -/
  | endOfInput
deriving DecidableEq, Repr

/-- How a lexeme is called in messages. -/
def Lexeme.describe : Lexeme → String
  | .word text => "identifier `" ++ text ++ "`"
  | .quoted text => "string \"" ++ text ++ "\""
  | .integer value => "integer " ++ toString value.toInt
  | .leftBrace => "`\x7b`"
  | .rightBrace => "`\x7d`"
  | .leftBracket => "`[`"
  | .rightBracket => "`]`"
  | .colon => "`:`"
  | .semicolon => "`;`"
  | .comma => "`,`"
  | .endOfInput => "end of input"

/-- A lexeme and its place in the text. -/
structure Token where
  lexeme : Lexeme
  span : Span
deriving DecidableEq, Repr

/-! ## Faults -/

/-- Why a text has no lexeme at some place. -/
inductive LexicalFault
  | unclosedComment
  | unclosedQuote
  | unknownEscape (c : Char)
  | integerOutOfRange (text : String)
  | unexpectedCharacter (c : Char)
deriving DecidableEq, Repr

/-- The message for a fault. -/
def LexicalFault.message : LexicalFault → String
  | .unclosedComment => "unterminated block comment"
  | .unclosedQuote => "unterminated string literal"
  | .unknownEscape c => "unknown escape `\\" ++ String.singleton c ++ "`"
  | .integerOutOfRange text => "integer literal `" ++ text ++ "` out of range"
  | .unexpectedCharacter c => "unexpected character `" ++ String.singleton c ++ "`"

/-- A fault and its place in the text. -/
structure LexicalError where
  fault : LexicalFault
  span : Span
deriving DecidableEq, Repr

/-- The error seen from a text that has `n` more bytes in front. -/
def LexicalError.shift (n : Nat) (e : LexicalError) : LexicalError :=
  { e with span := e.span.shift n }

/-! ## Classes of characters -/

/-- The characters that separate lexemes: space, tab, line feed, form feed and carriage return. -/
def isBlank (c : Char) : Bool :=
  c == ' ' || c == '\t' || c == '\n' || c == '\x0c' || c == '\r'

/-- The characters a word starts with: ASCII letters and the underscore. -/
def isWordStart (c : Char) : Bool := c.isAlpha || c == '_'

/-- The characters a word goes on with: ASCII letters and digits, the underscore and the dot. -/
def isWordPart (c : Char) : Bool := c.isAlphanum || c == '_' || c == '.'

/-- The lexeme a mark stands for. -/
def Lexeme.ofMark? : Char → Option Lexeme
  | '{' => some .leftBrace
  | '}' => some .rightBrace
  | '[' => some .leftBracket
  | ']' => some .rightBracket
  | ':' => some .colon
  | ';' => some .semicolon
  | ',' => some .comma
  | _ => none

/-! ## Integers -/

/-- The number that decimal digits write. -/
def digitsValue (digits : List Char) : Nat :=
  digits.foldl (fun n c => 10 * n + (c.toNat - '0'.toNat)) 0

/-- The number an integer literal writes: digits, with a minus sign in front if it is negative. -/
def integerValue : List Char → Int
  | '-' :: digits => - (digitsValue digits : Int)
  | digits => digitsValue digits

/-- The lexeme of an integer literal, if its number has 64 bits. -/
def Lexeme.ofInteger? (text : List Char) : Option Lexeme :=
  let n := integerValue text
  if Int64.minValue.toInt ≤ n ∧ n ≤ Int64.maxValue.toInt then some (.integer (Int64.ofInt n))
  else none

/-! ## Quoted texts -/

/-- The character an escape stands for: a quote, a backslash, a line feed or a tab. -/
def unescape? : Char → Option Char
  | '"' => some '"'
  | '\\' => some '\\'
  | 'n' => some '\n'
  | 't' => some '\t'
  | _ => none

/-- What follows an opening quote. -/
inductive QuoteBody
  /-- The text written, the characters taken for it (the closing quote included) and the rest. -/
  | closed (text taken rest : List Char)
  /-- The line or the input ends before the closing quote. -/
  | unclosed
  /-- A backslash stands before `c`, which is no escape; `before` was read up to the backslash. -/
  | badEscape (before : List Char) (c : Char)
deriving DecidableEq, Repr

/-- The body with one more character, written as `taken`, in front. -/
def QuoteBody.cons (c : Char) (taken : List Char) : QuoteBody → QuoteBody
  | .closed text more rest => .closed (c :: text) (taken ++ more) rest
  | .unclosed => .unclosed
  | .badEscape before d => .badEscape (taken ++ before) d

/-- Reads what follows an opening quote. -/
def scanQuote : List Char → QuoteBody
  | [] => .unclosed
  | '"' :: rest => .closed [] ['"'] rest
  | '\n' :: _ => .unclosed
  | ['\\'] => .unclosed
  | '\\' :: c :: rest => match unescape? c with
    | some d => (scanQuote rest).cons d ['\\', c]
    | none => .badEscape [] c
  | c :: rest => (scanQuote rest).cons c [c]

/-! ## One piece -/

/-- Splits what follows `/*` behind the first `*/`. -/
def splitComment : List Char → Option (List Char × List Char)
  | [] => none
  | '*' :: '/' :: rest => some (['*', '/'], rest)
  | c :: rest => (splitComment rest).map fun p => (c :: p.1, p.2)

/-- What was read off the front of a text: a lexeme, or a gap if there is none; the characters it
takes and those behind it. -/
structure Piece where
  lexeme : Option Lexeme
  taken : List Char
  rest : List Char
deriving DecidableEq, Repr

/-- A lexeme whose text goes on as long as `p` holds, after the characters `front`. -/
def Piece.while (p : Char → Bool) (front rest : List Char) (lexeme : List Char → Option Lexeme) :
    Piece :=
  let taken := front ++ rest.takeWhile p
  ⟨lexeme taken, taken, rest.dropWhile p⟩

/-- Reads an integer literal that starts with `front`. -/
def scanInteger (front rest : List Char) : Except LexicalError Piece :=
  let text := front ++ rest.takeWhile Char.isDigit
  match Lexeme.ofInteger? text with
  | some lexeme => .ok ⟨some lexeme, text, rest.dropWhile Char.isDigit⟩
  | none => .error ⟨.integerOutOfRange (String.ofList text), ⟨0, byteLength text⟩⟩

/-- Reads a quoted text behind its opening quote. -/
def scanQuoted (rest : List Char) : Except LexicalError Piece :=
  match scanQuote rest with
  | .closed text taken rest => .ok ⟨some (.quoted (String.ofList text)), '"' :: taken, rest⟩
  | .unclosed => .error ⟨.unclosedQuote, ⟨0, 1⟩⟩
  | .badEscape before c =>
    let start := 1 + byteLength before
    .error ⟨.unknownEscape c, ⟨start, start + 1 + c.utf8Size⟩⟩

/-- Reads a comment, or nothing else, behind a slash. -/
def scanSlash : List Char → Except LexicalError Piece
  | '/' :: rest => .ok (Piece.while (· != '\n') ['/', '/'] rest fun _ => none)
  | '*' :: rest => match splitComment rest with
    | some (taken, rest) => .ok ⟨none, '/' :: '*' :: taken, rest⟩
    | none => .error ⟨.unclosedComment, ⟨0, 2⟩⟩
  | _ => .error ⟨.unexpectedCharacter '/', ⟨0, 1⟩⟩

/-- Reads the piece that starts with `c`. Spans of errors count from `c`. -/
def scan (c : Char) (rest : List Char) : Except LexicalError Piece :=
  if isBlank c then .ok ⟨none, [c], rest⟩
  else if c = '/' then scanSlash rest
  else match Lexeme.ofMark? c with
    | some mark => .ok ⟨some mark, [c], rest⟩
    | none =>
      if c = '"' then scanQuoted rest
      else if c.isDigit ∨ (c = '-' ∧ (rest.head?.any Char.isDigit)) then scanInteger [c] rest
      else if isWordStart c then
        .ok (Piece.while isWordPart [c] rest fun text => some (.word (String.ofList text)))
      else .error ⟨.unexpectedCharacter c, ⟨0, c.utf8Size⟩⟩

/-! ## What one piece takes -/

theorem QuoteBody.cons_eq_closed {b : QuoteBody} {c : Char} {front text taken rest : List Char}
    (h : b.cons c front = .closed text taken rest) :
    ∃ t u, b = .closed t u rest ∧ text = c :: t ∧ taken = front ++ u := by
  cases b with
  | closed t u r =>
    cases h
    exact ⟨t, u, rfl, rfl, rfl⟩
  | unclosed => cases h
  | badEscape => cases h

theorem scanQuote_closed {cs text taken rest : List Char}
    (h : scanQuote cs = .closed text taken rest) : taken ++ rest = cs := by
  induction cs using scanQuote.induct generalizing text taken rest with
  | case1 => simp [scanQuote] at h
  | case2 => simp [scanQuote] at h; simp [← h]
  | case3 => simp [scanQuote] at h
  | case4 => simp [scanQuote] at h
  | case5 c r d hd ih =>
    simp only [scanQuote, hd] at h
    obtain ⟨t, u, hb, -, rfl⟩ := QuoteBody.cons_eq_closed h
    simp [ih hb]
  | case6 c r hd => simp [scanQuote, hd] at h
  | case7 c r h₁ h₂ h₃ h₄ ih =>
    rw [scanQuote.eq_def] at h
    split at h <;> simp_all
    obtain ⟨t, u, hb, -, rfl⟩ := QuoteBody.cons_eq_closed h
    simp [ih hb]

theorem splitComment_append {cs taken rest : List Char}
    (h : splitComment cs = some (taken, rest)) : taken ++ rest = cs := by
  induction cs using splitComment.induct generalizing taken rest with
  | case1 => simp [splitComment] at h
  | case2 => simp [splitComment] at h; simp [← h]
  | case3 c r hc ih =>
    rw [splitComment.eq_def] at h
    split at h <;> simp_all
    obtain ⟨t, hp, rfl⟩ := h
    simp [ih hp]

/-- What a piece takes and what it leaves make up the text. -/
theorem taken_append_rest {c : Char} {cs : List Char} {p : Piece} (h : scan c cs = .ok p) :
    p.taken ++ p.rest = c :: cs := by
  unfold scan at h
  split at h
  · cases h; rfl
  split at h
  · rename_i hc
    subst hc
    unfold scanSlash at h
    split at h
    · cases h; simp [Piece.while]
    · split at h
      · cases h; simp [splitComment_append ‹_›]
      · cases h
    · cases h
  split at h
  · cases h; rfl
  split at h
  · rename_i hc
    subst hc
    unfold scanQuoted at h
    split at h
    · cases h; simp [scanQuote_closed ‹_›]
    · cases h
    · cases h
  split at h
  · simp only [scanInteger] at h
    split at h
    · cases h; simp
    · cases h
  split at h
  · cases h; simp [Piece.while]
  · cases h

/-- A piece takes at least one character. -/
theorem taken_ne_nil {c : Char} {cs : List Char} {p : Piece} (h : scan c cs = .ok p) :
    p.taken ≠ [] := by
  unfold scan at h
  split at h
  · cases h; simp
  split at h
  · unfold scanSlash at h
    split at h
    · cases h; simp [Piece.while]
    · split at h <;> cases h; simp
    · cases h
  split at h
  · cases h; simp
  split at h
  · unfold scanQuoted at h
    split at h <;> cases h; simp
  split at h
  · simp only [scanInteger] at h
    split at h <;> cases h; simp
  split at h
  · cases h; simp [Piece.while]
  · cases h

theorem rest_length_lt {c : Char} {cs : List Char} {p : Piece} (h : scan c cs = .ok p) :
    p.rest.length < (c :: cs).length := by
  have happ := congrArg List.length (taken_append_rest h)
  have hne : 0 < p.taken.length := List.length_pos_iff.2 (taken_ne_nil h)
  simp only [List.length_append] at happ
  omega

/-! ## The whole text -/

/-- The tokens of a text that starts `pos` bytes into the source. -/
def tokensFrom (pos : Nat) (cs : List Char) : Except LexicalError (List Token) :=
  match cs with
  | [] => .ok [⟨.endOfInput, ⟨pos, pos⟩⟩]
  | c :: cs =>
    match _h : scan c cs with
    | .error e => .error (e.shift pos)
    | .ok p =>
      let next := pos + byteLength p.taken
      match p.lexeme with
      | some lexeme => (tokensFrom next p.rest).map (⟨lexeme, ⟨pos, next⟩⟩ :: ·)
      | none => tokensFrom next p.rest
termination_by cs.length
decreasing_by all_goals exact rest_length_lt _h

/-- The tokens of a text, closed by the end of input, or the first lexical error. -/
def tokenize (text : String) : Except LexicalError (List Token) := tokensFrom 0 text.toList

end Metamodel
