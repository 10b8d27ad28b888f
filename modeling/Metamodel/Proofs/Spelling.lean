import Metamodel.Proofs.Parsing

set_option autoImplicit false

/-! # Spelling lexemes

Every lexeme but the end of input has a spelling: words stand as they are, texts between quotes with
quotes, backslashes, line feeds and tabs escaped, integers in decimal. A text spells lexemes if it
consists of their spellings in order (`Spells`), with blanks anywhere between them. Blanks may be
left out unless the next character would go on with a word or an integer.

Such a text is tokenized to the lexemes that it spells (`Spells.exists_tokenize`). Each scan takes
one spelling and stops behind it (`scan_spelling`): escaping is undone character by character, and
the digits of a number are all digits and no more. -/

namespace Metamodel

/-! ## Spellings -/

/-- Whether a text is an identifier: a word of model text. -/
def isIdentifier (text : String) : Bool :=
  match text.toList with
  | [] => false
  | c :: cs => isWordStart c && cs.all isWordPart

/-- How a character stands between quotes. -/
def escape : Char → List Char
  | '"' => ['\\', '"']
  | '\\' => ['\\', '\\']
  | '\n' => ['\\', 'n']
  | '\t' => ['\\', 't']
  | c => [c]

namespace Lexeme

/-- How a lexeme stands in a text. -/
def spelling : Lexeme → List Char
  | .word text => text.toList
  | .quoted text => '"' :: (text.toList.flatMap escape ++ ['"'])
  | .integer value => (toString value.toInt).toList
  | .leftBrace => ['{']
  | .rightBrace => ['}']
  | .leftBracket => ['[']
  | .rightBracket => [']']
  | .colon => [':']
  | .semicolon => [';']
  | .comma => [',']
  | .endOfInput => []

/-- The lexeme can stand in a text: words have to be identifiers. -/
def Spellable : Lexeme → Prop
  | .word text => isIdentifier text = true
  | .endOfInput => False
  | _ => True

/-- Whether a character behind the spelling would go on with the lexeme. -/
def goesOn : Lexeme → Char → Bool
  | .word _ => isWordPart
  | .integer _ => Char.isDigit
  | _ => fun _ => false

/-- What follows does not go on with the lexeme. -/
def EndsBefore (l : Lexeme) (rest : List Char) : Prop := ∀ c ∈ rest.head?, l.goesOn c = false

end Lexeme

/-- The text consists of the spellings of the lexemes and of blanks between them. -/
inductive Spells : List Lexeme → List Char → Prop
  | nil : Spells [] []
  | blank {ls : List Lexeme} {c : Char} {cs : List Char} (hc : isBlank c = true)
    (h : Spells ls cs) : Spells ls (c :: cs)
  | lexeme {l : Lexeme} {ls : List Lexeme} {cs : List Char} (hl : l.Spellable)
    (hend : l.EndsBefore cs) (h : Spells ls cs) : Spells (l :: ls) (l.spelling ++ cs)

/-! ## Words -/

/-- The characters that begin gaps, quoted texts, negative integers and marks. -/
def specialChars : List Char :=
  ['/', '"', '-', ' ', '\t', '\n', '\x0c', '\r', '\x7b', '\x7d', '[', ']', ':', ';', ',']

/-- A character of a class without special characters begins none of what those begin. -/
theorem not_special_of_class {p : Char → Bool} (hp : specialChars.any p = false) {c : Char}
    (h : p c = true) :
    isBlank c = false ∧ c ≠ '/' ∧ Lexeme.ofMark? c = none ∧ c ≠ '"' ∧ c ≠ '-' := by
  have hc : c ∉ specialChars := by
    intro hmem
    have hany : specialChars.any p = true := List.any_eq_true.2 ⟨c, hmem, h⟩
    rw [hp] at hany
    cases hany
  simp only [specialChars, List.mem_cons, List.not_mem_nil, or_false, not_or] at hc
  obtain ⟨hslash, hquote, hminus, hspace, htab, hfeed, hpage, hreturn, hmarks⟩ := hc
  refine ⟨?_, hslash, ?_, hquote, hminus⟩
  · simp [isBlank, hspace, htab, hfeed, hpage, hreturn]
  · unfold Lexeme.ofMark?
    split <;> simp at hmarks ⊢

/-- Letters and the underscore come behind the digits. -/
theorem isDigit_eq_false_of_isWordStart {c : Char} (h : isWordStart c = true) :
    c.isDigit = false := by
  have hletter : 'A'.toNat ≤ c.toNat := by
    rw [isWordStart, Bool.or_eq_true, beq_iff_eq] at h
    rcases h with h | rfl
    · rcases Bool.or_eq_true_iff.1 h with hupper | hlower
      · exact UInt32.le_iff_toNat_le.1 (of_decide_eq_true hupper).1
      · have hlower : 'a'.toNat ≤ c.toNat :=
          UInt32.le_iff_toNat_le.1 (of_decide_eq_true (Bool.and_eq_true_iff.1 hlower).1)
        exact le_trans (by decide) hlower
    · decide
  by_contra hdigit
  rw [Bool.not_eq_false] at hdigit
  have hle : c.toNat ≤ '9'.toNat :=
    UInt32.le_iff_toNat_le.1 (of_decide_eq_true (Bool.and_eq_true_iff.1 hdigit).2)
  exact absurd (le_trans hletter hle) (by decide)

/-- What a predicate holds of, up to where it stops holding. -/
theorem takeWhile_append_of_stop {p : Char → Bool} {cs rest : List Char}
    (hcs : ∀ c ∈ cs, p c = true) (hrest : ∀ c ∈ rest.head?, p c = false) :
    (cs ++ rest).takeWhile p = cs ∧ (cs ++ rest).dropWhile p = rest := by
  have hstop : rest.takeWhile p = [] ∧ rest.dropWhile p = rest := by
    cases rest with
    | nil => simp
    | cons c rest => simp [hrest c (by simp)]
  constructor
  · rw [List.takeWhile_append_of_pos hcs, hstop.1, List.append_nil]
  · rw [List.dropWhile_append_of_pos hcs, hstop.2]

theorem scan_word {text : String} (h : isIdentifier text = true) {rest : List Char}
    (hend : (Lexeme.word text).EndsBefore rest) :
    ∃ c cs, (Lexeme.word text).spelling = c :: cs ∧
      scan c (cs ++ rest) = .ok ⟨some (.word text), c :: cs, rest⟩ := by
  unfold isIdentifier at h
  split at h
  · cases h
  · next c cs htext =>
    rw [Bool.and_eq_true, List.all_eq_true] at h
    obtain ⟨hc, hcs⟩ := h
    obtain ⟨hblank, hslash, hmark, hquote, hminus⟩ := not_special_of_class (by decide) hc
    have hdigit := isDigit_eq_false_of_isWordStart hc
    obtain ⟨htake, hdrop⟩ := takeWhile_append_of_stop hcs hend
    refine ⟨c, cs, htext, ?_⟩
    have hword : String.ofList (c :: cs) = text := by rw [← htext, String.ofList_toList]
    simp [scan, hblank, hslash, hmark, hquote, hdigit, hminus, hc, Piece.while, htake, hdrop, hword]

/-! ## Integers -/

theorem digitsValue_toDigits (n : Nat) : digitsValue (Nat.toDigits 10 n) = n :=
  Nat.ofDigitChars_toDigits (by omega) (by omega)

theorem isDigit_of_mem_toDigits (n : Nat) : ∀ c ∈ Nat.toDigits 10 n, c.isDigit = true := by
  intro c hc
  exact Nat.isDigit_of_mem_toDigits (by omega) (by omega) hc

/-- A number has a first digit. -/
theorem exists_toDigits_eq_cons (n : Nat) :
    ∃ c cs, Nat.toDigits 10 n = c :: cs ∧ c.isDigit = true ∧ ∀ d ∈ cs, d.isDigit = true := by
  have hdigits := isDigit_of_mem_toDigits n
  have hne : Nat.toDigits 10 n ≠ [] := Nat.toDigits_ne_nil
  obtain ⟨c, cs, hcs⟩ := List.exists_cons_of_ne_nil hne
  rw [hcs, List.forall_mem_cons] at hdigits
  exact ⟨c, cs, hcs, hdigits⟩

/-- An integer is spelled by digits, with a minus sign in front if it is negative. -/
theorem spelling_integer_cases (value : Int64) :
    (∃ n : Nat, value.toInt = n ∧ (Lexeme.integer value).spelling = Nat.toDigits 10 n) ∨
      ∃ n : Nat, value.toInt = -n ∧ (Lexeme.integer value).spelling = '-' :: Nat.toDigits 10 n := by
  cases h : value.toInt with
  | ofNat n =>
    left
    refine ⟨n, rfl, ?_⟩
    rw [Lexeme.spelling, h]
    exact Nat.toList_repr
  | negSucc n =>
    right
    refine ⟨n + 1, rfl, ?_⟩
    rw [Lexeme.spelling, h]
    change ("-" ++ (n + 1).repr).toList = _
    rw [String.toList_append, Nat.toList_repr]
    rfl

theorem integerValue_of_isDigit {cs : List Char} (h : ∀ c ∈ cs, c.isDigit = true) :
    integerValue cs = digitsValue cs := by
  unfold integerValue
  split
  · next digits =>
    exact absurd (h '-' List.mem_cons_self) (by decide)
  · rfl

theorem ofInteger?_spelling (value : Int64) :
    Lexeme.ofInteger? (Lexeme.integer value).spelling = some (.integer value) := by
  have hvalue : integerValue (Lexeme.integer value).spelling = value.toInt := by
    rcases spelling_integer_cases value with ⟨n, hn, hs⟩ | ⟨n, hn, hs⟩
    · rw [hs, integerValue_of_isDigit (isDigit_of_mem_toDigits n), digitsValue_toDigits, hn]
    · rw [hs, integerValue, digitsValue_toDigits, hn]
  have hbounds : Int64.minValue.toInt ≤ value.toInt ∧ value.toInt ≤ Int64.maxValue.toInt :=
    ⟨value.minValue_le_toInt, value.toInt_le⟩
  simp only [Lexeme.ofInteger?, hvalue, if_pos hbounds, Int64.ofInt_toInt]

/-- The digits that are scanned are those of the literal. -/
theorem scanInteger_append {value : Int64} {c : Char} {cs rest : List Char}
    (hs : (Lexeme.integer value).spelling = c :: cs) (hcs : ∀ d ∈ cs, d.isDigit = true)
    (hend : (Lexeme.integer value).EndsBefore rest) :
    scanInteger [c] (cs ++ rest) = .ok ⟨some (.integer value), c :: cs, rest⟩ := by
  obtain ⟨htake, hdrop⟩ := takeWhile_append_of_stop hcs hend
  have hlexeme := ofInteger?_spelling value
  rw [hs] at hlexeme
  simp [scanInteger, htake, hdrop, hlexeme]

theorem scan_integer (value : Int64) {rest : List Char}
    (hend : (Lexeme.integer value).EndsBefore rest) :
    ∃ c cs, (Lexeme.integer value).spelling = c :: cs ∧
      scan c (cs ++ rest) = .ok ⟨some (.integer value), c :: cs, rest⟩ := by
  rcases spelling_integer_cases value with ⟨n, -, hs⟩ | ⟨n, -, hs⟩
  · obtain ⟨c, cs, hn, hc, hcs⟩ := exists_toDigits_eq_cons n
    obtain ⟨hblank, hslash, hmark, hquote, -⟩ := not_special_of_class (by decide) hc
    rw [hn] at hs
    refine ⟨c, cs, hs, ?_⟩
    simp [scan, hblank, hslash, hmark, hquote, hc, scanInteger_append hs hcs hend]
  · have hhead : ((Nat.toDigits 10 n ++ rest).head?.any Char.isDigit) = true := by
      obtain ⟨d, ds, hn, hd, -⟩ := exists_toDigits_eq_cons n
      simp [hn, hd]
    have hscan : scan '-' (Nat.toDigits 10 n ++ rest) =
        if Char.isDigit '-' ∨ ('-' = '-' ∧ (Nat.toDigits 10 n ++ rest).head?.any Char.isDigit) then
          scanInteger ['-'] (Nat.toDigits 10 n ++ rest)
        else .error ⟨.unexpectedCharacter '-', ⟨0, 1⟩⟩ := rfl
    refine ⟨'-', Nat.toDigits 10 n, hs, ?_⟩
    rw [hscan, if_pos (.inr ⟨rfl, hhead⟩)]
    exact scanInteger_append hs (isDigit_of_mem_toDigits n) hend

/-! ## Quoted texts -/

/-- A character is escaped by a letter that stands for it, or stands for itself. -/
theorem escape_cases (c : Char) :
    (∃ e, escape c = ['\\', e] ∧ unescape? e = some c) ∨
      (escape c = [c] ∧ c ≠ '"' ∧ c ≠ '\\' ∧ c ≠ '\n') := by
  unfold escape
  split
  · exact .inl ⟨'"', rfl, rfl⟩
  · exact .inl ⟨'\\', rfl, rfl⟩
  · exact .inl ⟨'n', rfl, rfl⟩
  · exact .inl ⟨'t', rfl, rfl⟩
  · next hquote hbackslash hnewline _ => exact .inr ⟨rfl, hquote, hbackslash, hnewline⟩

/-- Escaping is undone. -/
theorem scanQuote_escape (cs rest : List Char) :
    scanQuote (cs.flatMap escape ++ '"' :: rest) = .closed cs (cs.flatMap escape ++ ['"']) rest := by
  induction cs with
  | nil => simp [scanQuote]
  | cons c cs ih =>
    rw [List.flatMap_cons, List.append_assoc]
    rcases escape_cases c with ⟨e, hescape, hunescape⟩ | ⟨hescape, hquote, hbackslash, hnewline⟩
    · simp [hescape, scanQuote, hunescape, ih, QuoteBody.cons]
    · rw [hescape, List.singleton_append, scanQuote.eq_def]
      simp [hbackslash, ih, QuoteBody.cons]

theorem scan_quoted (text : String) (rest : List Char) :
    scan '"' (text.toList.flatMap escape ++ ['"'] ++ rest) =
      .ok ⟨some (.quoted text), (Lexeme.quoted text).spelling, rest⟩ := by
  have hscan : scan '"' (text.toList.flatMap escape ++ ['"'] ++ rest) =
      scanQuoted (text.toList.flatMap escape ++ ['"'] ++ rest) := rfl
  rw [hscan, scanQuoted, List.append_assoc, List.singleton_append, scanQuote_escape]
  simp [Lexeme.spelling]

/-! ## Texts -/

/-- A scan takes one spelling and stops behind it. -/
theorem scan_spelling {l : Lexeme} (hl : l.Spellable) {rest : List Char} (hend : l.EndsBefore rest) :
    ∃ c cs, l.spelling = c :: cs ∧ scan c (cs ++ rest) = .ok ⟨some l, c :: cs, rest⟩ := by
  cases l with
  | word text => exact scan_word hl hend
  | quoted text => exact ⟨_, _, rfl, scan_quoted text rest⟩
  | integer value => exact scan_integer value hend
  | endOfInput => exact hl.elim
  | _ => exact ⟨_, _, rfl, rfl⟩

theorem Spells.exists_tokensFrom {ls : List Lexeme} {cs : List Char} (h : Spells ls cs) (pos : Nat) :
    ∃ ts, tokensFrom pos cs = .ok ts ∧ ts.map Token.lexeme = ls ++ [.endOfInput] := by
  induction h generalizing pos with
  | nil => exact ⟨_, by rw [tokensFrom], rfl⟩
  | @blank ls c cs hc h ih =>
    have hscan : scan c cs = .ok ⟨none, [c], cs⟩ := if_pos hc
    rw [tokensFrom_of_gap pos hscan rfl]
    exact ih _
  | @lexeme l ls rest hl hend h ih =>
    obtain ⟨c, cs, hs, hscan⟩ := scan_spelling hl hend
    obtain ⟨ts, hts, hlexemes⟩ := ih (pos + byteLength (c :: cs))
    rw [hs, List.cons_append, tokensFrom_of_lexeme pos hscan rfl]
    exact ⟨_, map_eq_ok.2 ⟨ts, hts, rfl⟩, by simp [hlexemes]⟩

/-- A text that spells lexemes is tokenized to them. -/
theorem Spells.exists_tokenize {ls : List Lexeme} {text : String} (h : Spells ls text.toList) :
    ∃ ts, tokenize text = .ok ts ∧ ts.map Token.lexeme = ls ++ [.endOfInput] :=
  h.exists_tokensFrom 0

/-- The lexemes with a blank behind each. -/
def spaced (ls : List Lexeme) : List Char := ls.flatMap fun l => l.spelling ++ [' ']

/-- Whatever can be spelled is spelled with blanks. -/
theorem spells_spaced {ls : List Lexeme} (h : ∀ l ∈ ls, l.Spellable) : Spells ls (spaced ls) := by
  induction ls with
  | nil => exact .nil
  | cons l ls ih =>
    obtain ⟨hl, hls⟩ := List.forall_mem_cons.1 h
    have hend : l.EndsBefore (' ' :: spaced ls) := by
      intro c hc
      obtain rfl : ' ' = c := by simpa using hc
      cases l <;> rfl
    have hspelled := Spells.lexeme hl hend (.blank rfl (ih hls))
    rwa [spaced, List.flatMap_cons, List.append_assoc, List.singleton_append]

end Metamodel
