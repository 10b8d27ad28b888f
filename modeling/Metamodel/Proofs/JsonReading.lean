import Metamodel.Json

set_option autoImplicit false

/-! # Reading JSON texts

`Json.ofText?` reads a JSON text back: the blanks outside of quotes are left out (`Json.strip`), the
rest is cut into tokens (`Json.tokenize?`), and the tokens are read from left to right, with the arrays
and objects that are still open on a stack (`Json.read?`).

Each of the three takes what is written for a value, whatever follows it, and leaves what follows as
it is: `strip_write`, `tokenize?_write` and `read?_tokens`. So a text leads back to the value it was
written for, in whichever layout (`ofText?_render`), and without its blanks it is the compact text
(`strip_render`). -/

namespace Metamodel

namespace Json

/-! ## Blanks -/

/-- Whether a character is a blank of JSON. -/
def isBlank (c : Char) : Bool := c = ' ' || c = '\n' || c = '\t' || c = '\r'

mutual

/-- A text without the blanks that stand outside of quotes. -/
def strip : List Char → List Char
  | [] => []
  | c :: cs =>
    if isBlank c then strip cs
    else if c = '"' then c :: stripQuoted cs
    else c :: strip cs

/-- The same for a text that starts inside of quotes. -/
def stripQuoted : List Char → List Char
  | [] => []
  | '"' :: cs => '"' :: strip cs
  | '\\' :: c :: cs => '\\' :: c :: stripQuoted cs
  | c :: cs => c :: stripQuoted cs

end

/-! ## Tokens -/

/-- The smallest parts of a JSON text without numbers. -/
inductive Token
  | leftBracket
  | rightBracket
  | leftBrace
  | rightBrace
  | comma
  | colon
  | null
  | bool (b : Bool)
  | string (s : String)

/-- The character that an escape stands for. -/
def unescape? : Char → Option Char
  | '"' => some '"'
  | '\\' => some '\\'
  | '/' => some '/'
  | 'b' => some '\x08'
  | 't' => some '\t'
  | 'n' => some '\n'
  | 'f' => some '\x0c'
  | 'r' => some '\r'
  | _ => none

/-- The value of a hexadecimal digit. -/
def hexDigit? (c : Char) : Option Nat :=
  if '0' ≤ c ∧ c ≤ '9' then some (c.toNat - '0'.toNat)
  else if 'a' ≤ c ∧ c ≤ 'f' then some (c.toNat - 'a'.toNat + 10)
  else if 'A' ≤ c ∧ c ≤ 'F' then some (c.toNat - 'A'.toNat + 10)
  else none

/-- The character of the code that four hexadecimal digits spell. -/
def codePoint? (a b c d : Char) : Option Char := do
  let a ← hexDigit? a
  let b ← hexDigit? b
  let c ← hexDigit? c
  let d ← hexDigit? d
  let code := ((a * 16 + b) * 16 + c) * 16 + d
  if code.isValidChar then some (.ofNat code) else none

mutual

/-- The tokens of a text without blanks. -/
def tokenize? : List Char → Option (List Token)
  | [] => some []
  | '[' :: cs => (tokenize? cs).map (.leftBracket :: ·)
  | ']' :: cs => (tokenize? cs).map (.rightBracket :: ·)
  | '{' :: cs => (tokenize? cs).map (.leftBrace :: ·)
  | '}' :: cs => (tokenize? cs).map (.rightBrace :: ·)
  | ',' :: cs => (tokenize? cs).map (.comma :: ·)
  | ':' :: cs => (tokenize? cs).map (.colon :: ·)
  | 'n' :: 'u' :: 'l' :: 'l' :: cs => (tokenize? cs).map (.null :: ·)
  | 't' :: 'r' :: 'u' :: 'e' :: cs => (tokenize? cs).map (.bool true :: ·)
  | 'f' :: 'a' :: 'l' :: 's' :: 'e' :: cs => (tokenize? cs).map (.bool false :: ·)
  | '"' :: cs => tokenizeQuoted? [] cs
  | _ => none

/-- The same for a text that starts inside of quotes, behind some characters of it. -/
def tokenizeQuoted? (before : List Char) : List Char → Option (List Token)
  | '"' :: cs => (tokenize? cs).map (.string (.ofList before) :: ·)
  | '\\' :: 'u' :: a :: b :: c :: d :: cs => match codePoint? a b c d with
    | some c => tokenizeQuoted? (before ++ [c]) cs
    | none => none
  | '\\' :: e :: cs => match unescape? e with
    | some c => tokenizeQuoted? (before ++ [c]) cs
    | none => none
  | c :: cs => tokenizeQuoted? (before ++ [c]) cs
  | [] => none

end

/-! ## Values -/

/-- An array or object that is still open. -/
inductive Frame
  /-- An array with the items before the one that is read. -/
  | array (items : List Json)
  /-- An object with the members before the one that is read, and the key of this one. -/
  | object (members : List (String × Json)) (key : String)

/-- What has just been read, or has to follow. -/
inductive Place
  /-- A value has to follow. -/
  | value
  /-- An array has been opened. -/
  | items
  /-- An object has been opened. -/
  | members
  /-- A key has to follow, behind some members. -/
  | key (members : List (String × Json))
  /-- A colon has to follow the key. -/
  | colon (members : List (String × Json)) (key : String)
  /-- A value has been read. -/
  | behind (j : Json)

/-- What the first token of a value leads to. -/
def start? (frames : List Frame) : Token → Option (Place × List Frame)
  | .null => some (.behind null, frames)
  | .bool b => some (.behind (bool b), frames)
  | .string s => some (.behind (string s), frames)
  | .leftBracket => some (.items, frames)
  | .leftBrace => some (.members, frames)
  | _ => none

/-- What the next token leads to, with the arrays and objects that are open, the innermost first. -/
def step? : Place → List Frame → Token → Option (Place × List Frame)
  | .value, frames, t => start? frames t
  | .items, frames, .rightBracket => some (.behind (array []), frames)
  | .items, frames, t => start? (.array [] :: frames) t
  | .members, frames, .rightBrace => some (.behind (object []), frames)
  | .members, frames, .string key => some (.colon [] key, frames)
  | .key members, frames, .string key => some (.colon members key, frames)
  | .colon members key, frames, .colon => some (.value, .object members key :: frames)
  | .behind j, .array items :: frames, .comma => some (.value, .array (items ++ [j]) :: frames)
  | .behind j, .array items :: frames, .rightBracket =>
    some (.behind (array (items ++ [j])), frames)
  | .behind j, .object members key :: frames, .comma =>
    some (.key (members ++ [(key, j)]), frames)
  | .behind j, .object members key :: frames, .rightBrace =>
    some (.behind (object (members ++ [(key, j)])), frames)
  | _, _, _ => none

/-- The value that some tokens lead to. -/
def read? : Place → List Frame → List Token → Option Json
  | .behind j, [], [] => some j
  | _, _, [] => none
  | place, frames, t :: ts => match step? place frames t with
    | some (place, frames) => read? place frames ts
    | none => none

/-- The value that a text says. -/
def ofText? (text : String) : Option Json :=
  (tokenize? (strip text.toList)).bind (read? .value [])

/-! ## Characters between quotes -/

/-- A character is escaped by a letter or by its code, or stands for itself. -/
theorem escape_cases (c : Char) :
    (∃ e, escape c = ['\\', e] ∧ e ≠ 'u' ∧ unescape? e = some c) ∨
      (∃ a b, escape c = ['\\', 'u', '0', '0', a, b] ∧ codePoint? '0' '0' a b = some c ∧
        a ≠ '"' ∧ a ≠ '\\' ∧ b ≠ '"' ∧ b ≠ '\\') ∨
      (escape c = [c] ∧ c ≠ '"' ∧ c ≠ '\\') := by
  -- Only the control characters are escaped by their code, the first two digits of which are zero.
  have hcode : ∀ n < 0x20, codePoint? '0' '0' (Nat.digitChar (n / 16)) (Nat.digitChar (n % 16)) =
        some (.ofNat n) ∧
      Nat.digitChar (n / 16) ≠ '"' ∧ Nat.digitChar (n / 16) ≠ '\\' ∧
      Nat.digitChar (n % 16) ≠ '"' ∧ Nat.digitChar (n % 16) ≠ '\\' := by
    decide
  unfold escape
  split
  case h_8 hquote hbackslash _ _ _ _ _ =>
    by_cases hc : c.toNat < 0x20
    · have hdigits := hcode c.toNat hc
      rw [Char.ofNat_toNat] at hdigits
      exact .inr (.inl ⟨_, _, if_pos hc, hdigits⟩)
    · exact .inr (.inr ⟨if_neg hc, hquote, hbackslash⟩)
  all_goals exact .inl ⟨_, rfl, by decide, rfl⟩

theorem tokenizeQuoted?_escape (before : List Char) (c : Char) (cs : List Char) :
    tokenizeQuoted? before (escape c ++ cs) = tokenizeQuoted? (before ++ [c]) cs := by
  rcases escape_cases c with ⟨e, he, hu, hc⟩ | ⟨a, b, he, hc, -⟩ | ⟨he, hquote, hbackslash⟩
  · simp [he, tokenizeQuoted?, hu, hc]
  · simp [he, tokenizeQuoted?, hc]
  · simp [he, tokenizeQuoted?, hbackslash]

theorem stripQuoted_escape (c : Char) (cs : List Char) :
    stripQuoted (escape c ++ cs) = escape c ++ stripQuoted cs := by
  rcases escape_cases c with ⟨e, he, -⟩ | ⟨a, b, he, -, ha, ha', hb, hb'⟩ | ⟨he, hquote, hbackslash⟩
  · simp [he, stripQuoted]
  · simp [he, stripQuoted, ha', hb']
  · simp [he, stripQuoted, hbackslash]

theorem tokenize?_quote (s : String) (cs : List Char) :
    tokenize? (quote s ++ cs) = (tokenize? cs).map (.string s :: ·) := by
  have hbody : ∀ before body : List Char,
      tokenizeQuoted? before (body.flatMap escape ++ '"' :: cs) =
        (tokenize? cs).map (.string (.ofList (before ++ body)) :: ·) := by
    intro before body
    induction body generalizing before with
    | nil => simp [tokenizeQuoted?]
    | cons c body ih =>
      rw [List.flatMap_cons, List.append_assoc, tokenizeQuoted?_escape, ih, List.append_assoc,
        List.singleton_append]
  rw [quote, List.append_assoc, List.singleton_append, List.cons_append, tokenize?, hbody]
  simp

theorem strip_quote (s : String) (cs : List Char) : strip (quote s ++ cs) = quote s ++ strip cs := by
  have hbody : ∀ body : List Char, stripQuoted (body.flatMap escape ++ '"' :: cs) =
      body.flatMap escape ++ '"' :: strip cs := by
    intro body
    induction body with
    | nil => simp [stripQuoted]
    | cons c body ih =>
      rw [List.flatMap_cons, List.append_assoc, stripQuoted_escape, ih, List.append_assoc]
  rw [quote, List.append_assoc, List.singleton_append, List.cons_append, strip, hbody]
  simp [isBlank]

/-! ## Texts without blanks -/

/-- A layout writes nothing but blanks, and one colon behind each key. -/
structure OnlyBlanks (layout : Layout) : Prop where
  lineBreak : ∀ depth, ∀ c ∈ layout.lineBreak depth, isBlank c = true
  colon : ∃ blanks, layout.colon = ':' :: blanks ∧ ∀ c ∈ blanks, isBlank c = true

theorem onlyBlanks_compact : OnlyBlanks .compact :=
  ⟨fun _ _ h => absurd h List.not_mem_nil, [], rfl, fun _ h => absurd h List.not_mem_nil⟩

theorem onlyBlanks_indented : OnlyBlanks .indented := by
  refine ⟨?_, [' '], rfl, by simp [isBlank]⟩
  intro depth c hc
  rcases List.mem_cons.1 hc with rfl | hc
  · rfl
  · rw [List.eq_of_mem_replicate hc]
    rfl

@[simp] theorem lineBreak_compact (depth : Nat) : Layout.compact.lineBreak depth = [] := rfl

@[simp] theorem colon_compact : Layout.compact.colon = [':'] := rfl

theorem strip_blanks {blanks : List Char} (hblanks : ∀ c ∈ blanks, isBlank c = true)
    (cs : List Char) : strip (blanks ++ cs) = strip cs := by
  induction blanks with
  | nil => rfl
  | cons c blanks ih =>
    rw [List.cons_append, strip, if_pos (hblanks c List.mem_cons_self)]
    exact ih fun d hd => hblanks d (List.mem_cons_of_mem c hd)

section Layouts

variable {layout : Layout} (h : OnlyBlanks layout)
include h

theorem strip_lineBreak (depth : Nat) (cs : List Char) :
    strip (layout.lineBreak depth ++ cs) = strip cs :=
  strip_blanks (h.lineBreak depth) cs

theorem strip_colon (cs : List Char) : strip (layout.colon ++ cs) = ':' :: strip cs := by
  obtain ⟨blanks, hcolon, hblanks⟩ := h.colon
  rw [hcolon, List.cons_append, strip, strip_blanks hblanks]
  rfl

mutual

-- By recursion on the value. What follows is arbitrary, so that a list is taken item by item.

/-- Without its blanks, what is written for a value is what the compact layout writes. -/
theorem strip_write (depth : Nat) (cs : List Char) : ∀ j : Json,
    strip (write layout depth j ++ cs) = write .compact depth j ++ strip cs
  | null => by simp [write, strip, isBlank]
  | bool b => by cases b <;> simp [write, strip, isBlank]
  | string s => by rw [write, write, strip_quote]
  | array [] => by simp [write, strip, isBlank]
  | array (item :: items) => by
    simp [write, strip, isBlank, strip_lineBreak h, strip_write _ _ item,
      strip_writeItems _ _ items]
  | object [] => by simp [write, strip, isBlank]
  | object ((key, value) :: members) => by
    simp [write, strip, isBlank, strip_lineBreak h, strip_colon h, strip_quote,
      strip_write _ _ value, strip_writeMembers _ _ members]

theorem strip_writeItems (depth : Nat) (cs : List Char) : ∀ items : List Json,
    strip (writeItems layout depth items ++ cs) = writeItems .compact depth items ++ strip cs
  | [] => rfl
  | item :: items => by
    simp [writeItems, strip, isBlank, strip_lineBreak h, strip_write _ _ item,
      strip_writeItems _ _ items]

theorem strip_writeMembers (depth : Nat) (cs : List Char) : ∀ members : List (String × Json),
    strip (writeMembers layout depth members ++ cs) =
      writeMembers .compact depth members ++ strip cs
  | [] => rfl
  | (key, value) :: members => by
    simp [writeMembers, strip, isBlank, strip_lineBreak h, strip_colon h, strip_quote,
      strip_write _ _ value, strip_writeMembers _ _ members]

end

theorem strip_render (j : Json) :
    strip (j.render layout).toList = (j.render .compact).toList := by
  have hstrip := strip_write h 0 [] j
  rw [strip, List.append_nil, List.append_nil] at hstrip
  rw [render, render, String.toList_ofList, String.toList_ofList, hstrip]

end Layouts

/-! ## Tokens of a value -/

mutual

/-- The tokens of a value. -/
def tokens : Json → List Token
  | null => [.null]
  | bool b => [.bool b]
  | string s => [.string s]
  | array [] => [.leftBracket, .rightBracket]
  | array (item :: items) => .leftBracket :: (tokens item ++ itemTokens items ++ [.rightBracket])
  | object [] => [.leftBrace, .rightBrace]
  | object ((key, value) :: members) =>
    .leftBrace :: .string key :: .colon :: (tokens value ++ memberTokens members ++ [.rightBrace])

/-- The tokens of further items of an array. -/
def itemTokens : List Json → List Token
  | [] => []
  | item :: items => .comma :: (tokens item ++ itemTokens items)

/-- The tokens of further members of an object. -/
def memberTokens : List (String × Json) → List Token
  | [] => []
  | (key, value) :: members =>
    .comma :: .string key :: .colon :: (tokens value ++ memberTokens members)

end

mutual

/-- What the compact layout writes for a value are the tokens of the value. -/
theorem tokenize?_write (depth : Nat) (cs : List Char) : ∀ j : Json,
    tokenize? (write .compact depth j ++ cs) = (tokenize? cs).map (j.tokens ++ ·)
  | null => by simp [write, tokenize?, tokens]
  | bool b => by cases b <;> simp [write, tokenize?, tokens]
  | string s => by simp [write, tokenize?_quote, tokens]
  | array [] => by simp [write, tokenize?, tokens, Function.comp_def]
  | array (item :: items) => by
    simp [write, tokenize?, tokens, tokenize?_write _ _ item, tokenize?_writeItems _ _ items,
      Function.comp_def]
  | object [] => by simp [write, tokenize?, tokens, Function.comp_def]
  | object ((key, value) :: members) => by
    simp [write, tokenize?, tokenize?_quote, tokens, tokenize?_write _ _ value,
      tokenize?_writeMembers _ _ members, Function.comp_def]

theorem tokenize?_writeItems (depth : Nat) (cs : List Char) : ∀ items : List Json,
    tokenize? (writeItems .compact depth items ++ cs) =
      (tokenize? cs).map (itemTokens items ++ ·)
  | [] => by simp [writeItems, itemTokens]
  | item :: items => by
    simp [writeItems, tokenize?, itemTokens, tokenize?_write _ _ item,
      tokenize?_writeItems _ _ items, Function.comp_def]

theorem tokenize?_writeMembers (depth : Nat) (cs : List Char) : ∀ members : List (String × Json),
    tokenize? (writeMembers .compact depth members ++ cs) =
      (tokenize? cs).map (memberTokens members ++ ·)
  | [] => by simp [writeMembers, memberTokens]
  | (key, value) :: members => by
    simp [writeMembers, tokenize?, tokenize?_quote, memberTokens, tokenize?_write _ _ value,
      tokenize?_writeMembers _ _ members, Function.comp_def]

end

/-! ## Values of tokens -/

/-- The first item of an array is a value. -/
theorem read?_items (frames : List Frame) (ts : List Token) (j : Json) :
    read? .items frames (j.tokens ++ ts) = read? .value (.array [] :: frames) (j.tokens ++ ts) := by
  cases j with
  | null => rfl
  | bool b => rfl
  | string s => rfl
  | array items => cases items <;> rfl
  | object members => cases members <;> rfl

mutual

/-- The tokens of a value are read as this value, whatever is open. -/
theorem read?_tokens (frames : List Frame) (ts : List Token) : ∀ j : Json,
    read? .value frames (j.tokens ++ ts) = read? (.behind j) frames ts
  | null => rfl
  | bool b => rfl
  | string s => rfl
  | array [] => rfl
  | array (item :: items) => by
    calc read? .value frames ((array (item :: items)).tokens ++ ts)
      _ = read? .items frames (item.tokens ++ (itemTokens items ++ .rightBracket :: ts)) := by
        simp [tokens, read?, step?, start?]
      _ = read? (.behind item) (.array [] :: frames) (itemTokens items ++ .rightBracket :: ts) := by
        rw [read?_items, read?_tokens _ _ item]
      _ = read? (.behind (array (item :: items))) frames ts := by
        rw [read?_itemTokens _ _ _ _ items, List.nil_append]
  | object [] => rfl
  | object ((key, value) :: members) => by
    calc read? .value frames ((object ((key, value) :: members)).tokens ++ ts)
      _ = read? .value (.object [] key :: frames)
          (value.tokens ++ (memberTokens members ++ .rightBrace :: ts)) := by
        simp [tokens, read?, step?, start?]
      _ = read? (.behind value) (.object [] key :: frames)
          (memberTokens members ++ .rightBrace :: ts) := by
        rw [read?_tokens _ _ value]
      _ = read? (.behind (object ((key, value) :: members))) frames ts := by
        rw [read?_memberTokens _ _ _ _ _ members, List.nil_append]

theorem read?_itemTokens (frames : List Frame) (ts : List Token) (before : List Json) (j : Json) :
    ∀ items : List Json,
      read? (.behind j) (.array before :: frames) (itemTokens items ++ .rightBracket :: ts) =
        read? (.behind (array (before ++ j :: items))) frames ts
  | [] => rfl
  | item :: items => by
    calc read? (.behind j) (.array before :: frames)
          (itemTokens (item :: items) ++ .rightBracket :: ts)
      _ = read? .value (.array (before ++ [j]) :: frames)
          (item.tokens ++ (itemTokens items ++ .rightBracket :: ts)) := by
        simp [itemTokens, read?, step?]
      _ = read? (.behind item) (.array (before ++ [j]) :: frames)
          (itemTokens items ++ .rightBracket :: ts) := by
        rw [read?_tokens _ _ item]
      _ = read? (.behind (array (before ++ j :: item :: items))) frames ts := by
        rw [read?_itemTokens _ _ _ _ items, List.append_assoc, List.singleton_append]

theorem read?_memberTokens (frames : List Frame) (ts : List Token)
    (before : List (String × Json)) (k : String) (j : Json) : ∀ members : List (String × Json),
      read? (.behind j) (.object before k :: frames)
          (memberTokens members ++ .rightBrace :: ts) =
        read? (.behind (object (before ++ (k, j) :: members))) frames ts
  | [] => rfl
  | (key, value) :: members => by
    calc read? (.behind j) (.object before k :: frames)
          (memberTokens ((key, value) :: members) ++ .rightBrace :: ts)
      _ = read? .value (.object (before ++ [(k, j)]) key :: frames)
          (value.tokens ++ (memberTokens members ++ .rightBrace :: ts)) := by
        simp [memberTokens, read?, step?]
      _ = read? (.behind value) (.object (before ++ [(k, j)]) key :: frames)
          (memberTokens members ++ .rightBrace :: ts) := by
        rw [read?_tokens _ _ value]
      _ = read? (.behind (object (before ++ (k, j) :: (key, value) :: members))) frames ts := by
        rw [read?_memberTokens _ _ _ _ _ members, List.append_assoc, List.singleton_append]

end

/-- **A text leads back to its value.** Whichever blanks a layout writes, what is written for a value
is read as this value. -/
theorem ofText?_render {layout : Layout} (h : OnlyBlanks layout) (j : Json) :
    ofText? (j.render layout) = some j := by
  have htokens := tokenize?_write 0 [] j
  rw [List.append_nil, tokenize?, Option.map_some, List.append_nil] at htokens
  have hread := read?_tokens [] [] j
  rw [List.append_nil] at hread
  rw [ofText?, strip_render h, render, String.toList_ofList, htokens, Option.bind_some, hread]
  rfl

end Json

end Metamodel
