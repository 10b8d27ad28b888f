import Metamodel.Text.Token

set_option autoImplicit false

/-! # Reading bytes in place

`tokenize` takes characters off the front of a list. The scanner given here stays in the text and
moves an offset through its bytes. Its reads can fail: a byte can be read only in the text and, where
a character is looked at, only where one begins; what is cut out of the text has to begin and end
between characters. If anything of this fails there is no result at all, neither tokens nor an error,
and neither is there if a step does not get ahead.

Comments are skipped byte by byte, whatever characters they hold. `Caution` says whether their bytes
may be read within characters, or only where a character begins like all others. -/

namespace Metamodel

namespace Bytewise

/-- Where bytes are read only if a character begins there: everywhere, or outside of comments. -/
inductive Caution
  | everywhere
  | outsideComments
deriving DecidableEq, Repr

variable (caution : Caution) (text : String)

/-! ## Reads that can fail -/

/-- The byte at an offset, as the character of the same number. -/
def byteAt (i : Nat) : Option Char := text.toUTF8[i]?.map Char.ofUInt8

/-- The byte at an offset at which a character begins. -/
def firstByteAt (i : Nat) : Option Char :=
  if String.Pos.Raw.IsValid text ⟨i⟩ then byteAt text i else none

/-- The byte at an offset within a comment. -/
def commentByteAt (i : Nat) : Option Char :=
  match caution with
  | .everywhere => firstByteAt text i
  | .outsideComments => byteAt text i

/-- Whether the byte at an offset satisfies `p`. There is none at the end of the text. -/
def looksAhead (p : Char → Bool) (i : Nat) : Option Bool :=
  if i = text.utf8ByteSize then some false else (firstByteAt text i).map p

/-- The text between two offsets that stand between characters. -/
def slice (i j : Nat) : Option String :=
  if h : i ≤ j ∧ String.Pos.Raw.IsValid text ⟨i⟩ ∧ String.Pos.Raw.IsValid text ⟨j⟩ then
    some (text.extract (text.pos ⟨i⟩ h.2.1) (text.pos ⟨j⟩ h.2.2))
  else none

/-! ## Pieces -/

/-- The first offset from `i` on whose byte fails `p`, or the end of the text. -/
def skipWhile (read : Nat → Option Char) (p : Char → Bool) (i : Nat) : Option Nat :=
  if i < text.utf8ByteSize then do
    let c ← read i
    if p c then skipWhile read p (i + 1) else return i
  else return i
termination_by text.utf8ByteSize - i

/-- The offset behind the closing mark of a comment, if there is one. -/
def closeComment (read : Nat → Option Char) (i : Nat) : Option (Option Nat) :=
  if i + 1 < text.utf8ByteSize then do
    let c ← read i
    if c = '*' then
      let d ← read (i + 1)
      if d = '/' then return some (i + 2) else closeComment read (i + 1)
    else closeComment read (i + 1)
  else return none
termination_by text.utf8ByteSize - i

/-- What is found at an offset: a lexeme or a gap, and the offset behind it. -/
abbrev Found := Except LexicalError (Option Lexeme × Nat)

/-- Reads the characters behind the quote at `start`, of which the next one is at `pos`. -/
def readQuote (start pos : Nat) (value : List Char) : List Char → Found
  | [] => .error ⟨.unclosedQuote, ⟨start, start + 1⟩⟩
  | '"' :: _ => .ok (some (.quoted (String.ofList value)), pos + 1)
  | '\n' :: _ => .error ⟨.unclosedQuote, ⟨start, start + 1⟩⟩
  | ['\\'] => .error ⟨.unclosedQuote, ⟨start, start + 1⟩⟩
  | '\\' :: c :: rest => match unescape? c with
    | some d => readQuote start (pos + 1 + c.utf8Size) (value ++ [d]) rest
    | none => .error ⟨.unknownEscape c, ⟨pos, pos + 1 + c.utf8Size⟩⟩
  | c :: rest => readQuote start (pos + c.utf8Size) (value ++ [c]) rest

/-- Skips the line comment at `pos`. -/
def readLineComment (pos : Nat) : Option Found := do
  let stop ← skipWhile text (commentByteAt caution text) (· != '\n') pos
  return .ok (none, stop)

/-- Skips the block comment at `pos`. -/
def readBlockComment (pos : Nat) : Option Found := do
  match ← closeComment text (commentByteAt caution text) (pos + 2) with
  | some stop => return .ok (none, stop)
  | none => return .error ⟨.unclosedComment, ⟨pos, pos + 2⟩⟩

/-- Reads the quoted text at `pos`. -/
def readQuoted (pos : Nat) : Option Found := do
  let rest ← slice text (pos + 1) text.utf8ByteSize
  return readQuote pos (pos + 1) [] rest.toList

/-- Reads the integer at `pos`. -/
def readInteger (pos : Nat) : Option Found := do
  let stop ← skipWhile text (firstByteAt text) Char.isDigit (pos + 1)
  let literal ← slice text pos stop
  match Lexeme.ofInteger? literal.toList with
  | some lexeme => return .ok (some lexeme, stop)
  | none => return .error ⟨.integerOutOfRange literal, ⟨pos, stop⟩⟩

/-- Reads the word at `pos`. -/
def readWord (pos : Nat) : Option Found := do
  let stop ← skipWhile text (firstByteAt text) isWordPart pos
  let word ← slice text pos stop
  return .ok (some (.word word), stop)

/-- Reports the character at `pos`. -/
def reportCharacter (pos : Nat) : Option Found := do
  let rest ← slice text pos text.utf8ByteSize
  let c := rest.toList.head?.getD '?'
  return .error ⟨.unexpectedCharacter c, ⟨pos, pos + c.utf8Size⟩⟩

/-- What is found at a slash: a comment or an error. -/
def readSlash (pos : Nat) : Option Found := do
  if ← looksAhead text (· == '/') (pos + 1) then readLineComment caution text pos
  else if ← looksAhead text (· == '*') (pos + 1) then readBlockComment caution text pos
  else reportCharacter text pos

/-- What is found at a minus sign: an integer or an error. -/
def readMinus (pos : Nat) : Option Found := do
  if ← looksAhead text Char.isDigit (pos + 1) then readInteger text pos
  else reportCharacter text pos

/-- What is found at an offset at which a character begins. -/
def readPiece (pos : Nat) : Option Found := do
  let c ← firstByteAt text pos
  if isBlank c then return .ok (none, pos + 1)
  else if c = '/' then readSlash caution text pos
  else match Lexeme.ofMark? c with
    | some mark => return .ok (some mark, pos + 1)
    | none =>
      if c = '"' then readQuoted text pos
      else if c.isDigit then readInteger text pos
      else if c = '-' then readMinus text pos
      else if isWordStart c then readWord text pos
      else reportCharacter text pos

/-! ## Tokens -/

/-- The tokens from an offset on, behind those that have been found before. -/
def tokensFrom (pos : Nat) (tokens : List Token) : Option (Except LexicalError (List Token)) :=
  if pos < text.utf8ByteSize then do
    match ← readPiece caution text pos with
    | .error e => return .error e
    | .ok (lexeme, next) =>
      if pos < next then
        tokensFrom next (tokens ++ lexeme.toList.map (⟨·, ⟨pos, next⟩⟩))
      else none
  else return .ok (tokens ++ [⟨.endOfInput, ⟨text.utf8ByteSize, text.utf8ByteSize⟩⟩])
termination_by text.utf8ByteSize - pos

/-- The tokens of a text or its first lexical error, if all that is read can be read. -/
def tokenize : Option (Except LexicalError (List Token)) := tokensFrom caution text 0 []

end Bytewise

end Metamodel
