import Metamodel.Toml.Basic

set_option autoImplicit false

/-! # Texts, keys and gaps of TOML

What stands in a TOML document besides numbers, read off the front of a list of characters. A reader
gives what it read and the rest, or nothing if the document is at fault there.

Texts are closed by the quote that opened them, a line of text by one and a block of text by three.
Between double quotes a backslash introduces an escape, and in a block it also joins lines. -/

namespace Metamodel

namespace Toml

/-- What a reader gives: something read and the characters behind it. -/
abbrev Read (α : Type) := Option (α × List Char)

/-! ## Classes of characters -/

/-- The blanks within a line. -/
def isBlank (c : Char) : Bool := c == ' ' || c == '\t'

/-- The characters of comments and texts: the tab and all that are no ASCII control characters. -/
def isText (c : Char) : Bool := c == '\t' || (0x20 ≤ c.toNat && c.toNat != 0x7f)

/-- The characters of keys without quotes. -/
def isBare (c : Char) : Bool := c.isAlphanum || c == '_' || c == '-'

/-! ## Gaps -/

/-- The characters behind a line break. -/
def newline? : List Char → Option (List Char)
  | '\n' :: cs => some cs
  | '\r' :: '\n' :: cs => some cs
  | _ => none

/-- The characters behind the blanks at the front. -/
def skipBlanks (cs : List Char) : List Char := cs.dropWhile isBlank

/-- The characters behind the blanks and line breaks at the front. -/
def skipLines : List Char → List Char
  | '\n' :: cs => skipLines cs
  | '\r' :: '\n' :: cs => skipLines cs
  | c :: cs => if isBlank c then skipLines cs else c :: cs
  | [] => []

/-- The characters behind the blanks, line breaks and comments at the front; at the start one may
be inside a comment. -/
def skipGap (inComment : Bool) : List Char → List Char
  | '\n' :: cs => skipGap false cs
  | '\r' :: '\n' :: cs => skipGap false cs
  | c :: cs =>
    if inComment then if isText c then skipGap true cs else c :: cs
    else if isBlank c then skipGap false cs
    else if c = '#' then skipGap true cs
    else c :: cs
  | [] => []

/-- The next line, if the rest of this one is empty but for blanks and a comment. -/
def lineEnd? (cs : List Char) : Option (List Char) :=
  let rest := match skipBlanks cs with
    | '#' :: comment => comment.dropWhile isText
    | cs => cs
  if rest = [] then some [] else newline? rest

theorem length_skipLines_le (cs : List Char) : (skipLines cs).length ≤ cs.length := by
  fun_induction skipLines cs with
  | case1 cs ih => simp only [List.length_cons]; omega
  | case2 cs ih => simp only [List.length_cons]; omega
  | case3 c cs h₁ h₂ hc ih => simp only [List.length_cons]; omega
  | case4 => exact Nat.le_refl _
  | case5 => exact Nat.le_refl _

theorem length_skipBlanks_le (cs : List Char) : (skipBlanks cs).length ≤ cs.length :=
  (List.dropWhile_suffix _).length_le

theorem length_newline?_lt {cs rest : List Char} (h : newline? cs = some rest) :
    rest.length < cs.length := by
  unfold newline? at h
  split at h <;> simp only [Option.some.injEq, reduceCtorEq] at h <;> subst h <;>
    simp only [List.length_cons] <;> omega

/-! ## Escapes -/

/-- The value of a hexadecimal digit. -/
def hexDigit? (c : Char) : Option Nat :=
  if c.isDigit then some (c.toNat - '0'.toNat)
  else if 'a' ≤ c ∧ c ≤ 'f' then some (c.toNat - 'a'.toNat + 10)
  else if 'A' ≤ c ∧ c ≤ 'F' then some (c.toNat - 'A'.toNat + 10)
  else none

/-- The character whose code the first `n` characters write in hexadecimal digits. -/
def codePoint? (n : Nat) (cs : List Char) : Option Char := do
  let digits ← (cs.take n).mapM hexDigit?
  let code := digits.foldl (fun code d => 16 * code + d) 0
  if digits.length = n ∧ code.isValidChar then some (Char.ofNat code) else none

/-- The character that an escape behind its backslash stands for, and the length of the escape. -/
def escape? : List Char → Option (Char × Nat)
  | 'b' :: _ => some ('\x08', 1)
  | 't' :: _ => some ('\t', 1)
  | 'n' :: _ => some ('\n', 1)
  | 'f' :: _ => some ('\x0c', 1)
  | 'r' :: _ => some ('\r', 1)
  | '"' :: _ => some ('"', 1)
  | '\\' :: _ => some ('\\', 1)
  | 'u' :: cs => (codePoint? 4 cs).map (·, 5)
  | 'U' :: cs => (codePoint? 8 cs).map (·, 9)
  | _ => none

/-- The characters where a text goes on behind a backslash that stands at the end of a line. -/
def joinLines? (cs : List Char) : Option (List Char) := (newline? (skipBlanks cs)).map skipLines

theorem length_joinLines?_lt {cs rest : List Char} (h : joinLines? cs = some rest) :
    rest.length < cs.length := by
  obtain ⟨r, hr, rfl⟩ := Option.map_eq_some_iff.1 h
  have h₁ := length_newline?_lt hr
  have h₂ := length_skipBlanks_le cs
  have h₃ := length_skipLines_le r
  omega

/-! ## Texts -/

/-- The text with one more character in front. -/
def push (c : Char) (r : List Char × List Char) : List Char × List Char := (c :: r.1, r.2)

/-- The text of a line behind its opening quote. -/
def lineText (quote : Char) : List Char → Read (List Char)
  | [] => none
  | c :: cs =>
    if c = quote then some ([], cs)
    else if c = '\\' ∧ quote = '"' then
      match escape? cs with
      | some (e, n) => (lineText quote (cs.drop n)).map (push e)
      | none => none
    else if isText c then (lineText quote cs).map (push c)
    else none
termination_by cs => cs.length
decreasing_by all_goals simp only [List.length_drop, List.length_cons]; omega

/-- The number of quotes that belong to the text in a run of quotes, if the run closes a block: three
close it, and up to two may stand in front of them. -/
def closing? (quotes : Nat) : Option Nat := if 3 ≤ quotes then some (min (quotes - 3) 2) else none

/-- The text of a block behind its opening quotes. Every line break in it is a line feed. -/
def blockText (quote : Char) (cs : List Char) : Read (List Char) :=
  match closing? (cs.takeWhile (· == quote)).length with
  | some n => some (List.replicate n quote, cs.drop (n + 3))
  | none =>
    match _h : newline? cs with
    | some rest => (blockText quote rest).map (push '\n')
    | none =>
      match cs with
      | [] => none
      | c :: cs =>
        if c = '\\' ∧ quote = '"' then
          match _h : joinLines? cs with
          | some rest => blockText quote rest
          | none =>
            match escape? cs with
            | some (e, n) => (blockText quote (cs.drop n)).map (push e)
            | none => none
        else if isText c then (blockText quote cs).map (push c)
        else none
termination_by cs.length
decreasing_by
  · exact length_newline?_lt _h
  · have := length_joinLines?_lt _h
    simp only [List.length_cons]
    omega
  · simp only [List.length_drop, List.length_cons]; omega
  · simp only [List.length_cons]; omega

/-- A text in any of its forms, from its opening quote on. A line break right behind the opening
quotes of a block is left out. -/
def text? : List Char → Read String
  | '"' :: '"' :: '"' :: cs => block '"' cs
  | '\'' :: '\'' :: '\'' :: cs => block '\'' cs
  | '"' :: cs => (lineText '"' cs).map toText
  | '\'' :: cs => (lineText '\'' cs).map toText
  | _ => none
where
  toText (r : List Char × List Char) : String × List Char := (String.ofList r.1, r.2)
  block (quote : Char) (cs : List Char) : Read String :=
    (blockText quote ((newline? cs).getD cs)).map toText

/-! ## Keys -/

/-- A key without dots: a line of text between quotes, or some bare characters. -/
def simpleKey? : List Char → Read String
  | '"' :: cs => (lineText '"' cs).map text?.toText
  | '\'' :: cs => (lineText '\'' cs).map text?.toText
  | cs =>
    let name := cs.takeWhile isBare
    if name = [] then none else some (String.ofList name, cs.dropWhile isBare)

/-- Things read by `item`, one or more, with a mark between them. Blanks may stand around each. -/
def sequence? {α : Type} (mark : Char) (item : List Char → Read α) (cs : List Char) :
    Read (List α) :=
  match item (skipBlanks cs) with
  | none => none
  | some (a, rest) =>
    match skipBlanks rest with
    | [] => some ([a], [])
    | c :: rest =>
      if c = mark ∧ rest.length < cs.length then
        (sequence? mark item rest).map fun r => (a :: r.1, r.2)
      else some ([a], c :: rest)
termination_by cs.length

/-- How deep values may nest, and how many parts a key may have. -/
def depthLimit : Nat := 79

/-- A key and the blanks around it: the keys in front of its dots, and the last one. -/
def key? (cs : List Char) : Option ((List String × String) × List Char) := do
  let (parts, rest) ← sequence? '.' simpleKey? cs
  let last ← parts.getLast?
  if parts.length ≤ depthLimit then some ((parts.dropLast, last), rest) else none

/-! ## Writing texts -/

/-- A text as a line between double quotes. -/
def quote (s : String) : List Char := '"' :: s.toList.flatMap escape ++ ['"']
where
  escape (c : Char) : List Char :=
    if c = '"' ∨ c = '\\' then ['\\', c]
    else if isText c then [c]
    else ['\\', 'u', '0', '0', Nat.digitChar (c.toNat / 16), Nat.digitChar (c.toNat % 16)]

end Toml

end Metamodel
