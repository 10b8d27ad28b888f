import Mathlib.Data.List.TakeWhile
import Metamodel.Proofs.LineBreaks
import Metamodel.Proofs.Offsets
import Metamodel.Proofs.Spelling

set_option autoImplicit false

/-! # Tokens tile the text

The tokens of a text stand one behind the other, and what is left between them is blanks and
comments (`tokenize_tiling`). Nothing of a text is dropped or read twice.

A scan that gives no lexeme takes one blank or one comment (`gapPiece_of_scan`). A scan that gives a
lexeme takes no more than it needs, so that what it takes is read in the same way without the rest
(`exists_scan_taken`), and stops only where the lexeme cannot go on (`endsBefore_rest`). The pieces
between two lexemes make up a gap, so a text is a gap and a lexeme, again and again, and a gap in the
end (`Tiled`). Each token is found in this sequence together with what is in front of it and behind
it (`Tiled.exists_split`), which is all that the parts of a `Tiling` ask for. -/

namespace Metamodel

/-! ## Gaps -/

/-- One blank or one comment, in front of some text. -/
inductive GapPiece : List Char → List Char → Prop
  | blank {c : Char} {rest : List Char} (h : isBlank c = true) : GapPiece [c] rest
  /-- A line comment goes on up to a line feed or the end of the text. -/
  | line {body rest : List Char} (hbody : '\n' ∉ body) (hrest : ∀ c ∈ rest.head?, c = '\n') :
    GapPiece ('/' :: '/' :: body) rest
  /-- A block comment is closed by the first closing mark behind its opening mark. -/
  | block {body rest : List Char} (hbody : ¬['*', '/'] <:+: body ++ ['*']) :
    GapPiece ('/' :: '*' :: (body ++ ['*', '/'])) rest

/-- Some text in front of other text, made up of blanks and comments. -/
inductive Gap : List Char → List Char → Prop
  | nil {rest : List Char} : Gap [] rest
  | cons {piece gap rest : List Char} (hpiece : GapPiece piece (gap ++ rest)) (h : Gap gap rest) :
    Gap (piece ++ gap) rest

/-! ## What one piece takes -/

/-- What is taken up to a closing mark has no closing mark further in front. -/
theorem exists_of_splitComment {cs taken rest : List Char}
    (h : splitComment cs = some (taken, rest)) :
    ∃ body, taken = body ++ ['*', '/'] ∧ ¬['*', '/'] <:+: body ++ ['*'] := by
  induction cs using splitComment.induct generalizing taken rest with
  | case1 => cases h
  | case2 cs =>
    cases h
    exact ⟨[], rfl, by decide⟩
  | case3 c cs hc ih =>
    have hopen := head?_ne_of_not_closed hc
    rw [splitComment_cons hopen] at h
    obtain ⟨⟨more, rest'⟩, hp, hcons⟩ := Option.map_eq_some_iff.1 h
    obtain ⟨rfl, rfl⟩ := Prod.mk.inj hcons
    obtain ⟨body, rfl, hbody⟩ := ih hp
    refine ⟨c :: body, rfl, ?_⟩
    rw [List.cons_append, List.infix_cons_iff, List.cons_prefix_cons]
    rintro (⟨hstar, hslash⟩ | hinfix)
    · -- The slash would be the next character of the text.
      have hcs := splitComment_append hp
      cases body with
      | nil => exact absurd hslash (by decide)
      | cons d ds =>
        obtain rfl := (List.cons_prefix_cons.1 hslash).1
        exact hopen hstar.symm (by rw [← hcs]; rfl)
    · exact hbody hinfix

theorem eq_false_of_mem_head?_dropWhile {p : Char → Bool} {cs : List Char} {c : Char}
    (h : c ∈ (cs.dropWhile p).head?) : p c = false := by
  have hstop := List.head?_dropWhile_not p cs
  rw [Option.mem_def.1 h] at hstop
  exact hstop

/-- A piece without a lexeme is a blank or a comment. -/
theorem gapPiece_of_scan {c : Char} {cs : List Char} {p : Piece} (h : scan c cs = .ok p)
    (hp : p.lexeme = none) : GapPiece p.taken p.rest := by
  cases scan_eq_ok_iff.1 h with
  | blank hblank => exact .blank hblank
  | line =>
    refine .line ?_ ?_
    · intro hmem
      exact absurd (List.mem_takeWhile_imp hmem) (by decide)
    · intro d hd
      simpa using eq_false_of_mem_head?_dropWhile hd
  | block hsplit =>
    obtain ⟨body, rfl, hbody⟩ := exists_of_splitComment hsplit
    exact .block hbody
  | _ => cases hp

theorem scanQuote_taken {cs text taken rest : List Char}
    (h : scanQuote cs = .closed text taken rest) : scanQuote taken = .closed text taken [] := by
  induction cs using scanQuote.induct generalizing text taken rest with
  | case1 => cases h
  | case2 cs =>
    cases h
    rfl
  | case3 => cases h
  | case4 => cases h
  | case5 c cs d hd ih =>
    simp only [scanQuote, hd] at h
    obtain ⟨t, u, hbody, rfl, rfl⟩ := QuoteBody.cons_eq_closed h
    simp only [List.cons_append, List.nil_append, scanQuote, hd, ih hbody, QuoteBody.cons]
  | case6 c cs hd =>
    simp only [scanQuote, hd] at h
    cases h
  | case7 c cs hquote hfeed hlast hescape ih =>
    have hbackslash := ne_backslash_of_not_escape hlast hescape
    rw [scanQuote_cons hquote hfeed hbackslash] at h
    obtain ⟨t, u, hbody, rfl, rfl⟩ := QuoteBody.cons_eq_closed h
    rw [List.singleton_append, scanQuote_cons hquote hfeed hbackslash, ih hbody]
    rfl

theorem dropWhile_takeWhile (p : Char → Bool) (cs : List Char) :
    (cs.takeWhile p).dropWhile p = [] :=
  List.dropWhile_eq_nil_iff.2 fun _ => List.mem_takeWhile_imp

theorem any_head?_takeWhile (p : Char → Bool) (cs : List Char) :
    (cs.takeWhile p).head?.any p = cs.head?.any p := by
  cases cs with
  | nil => rfl
  | cons c cs => cases hc : p c <;> simp [hc]

/-- What a lexeme takes is read as the lexeme if nothing stands behind it. -/
theorem exists_scan_taken {c : Char} {cs : List Char} {p : Piece} {l : Lexeme}
    (h : scan c cs = .ok p) (hp : p.lexeme = some l) :
    ∃ ds, p.taken = c :: ds ∧ scan c ds = .ok ⟨some l, c :: ds, []⟩ := by
  cases scan_eq_ok_iff.1 h with
  | blank => cases hp
  | line => cases hp
  | block => cases hp
  | mark hmark =>
    cases hp
    exact ⟨[], rfl, scan_eq_ok_iff.2 (.mark hmark)⟩
  | quoted hbody =>
    cases hp
    exact ⟨_, rfl, scan_eq_ok_iff.2 (.quoted (scanQuote_taken hbody))⟩
  | integer hc hdigit hlexeme =>
    cases hp
    rw [← any_head?_takeWhile] at hdigit
    rw [← List.takeWhile_idem (p := Char.isDigit)] at hlexeme
    have halone := Scans.integer hc hdigit hlexeme
    rw [List.takeWhile_idem, dropWhile_takeWhile] at halone
    exact ⟨cs.takeWhile Char.isDigit, rfl, scan_eq_ok_iff.2 halone⟩
  | word hc hdigit hword =>
    cases hp
    have halone : Scans c (cs.takeWhile isWordPart) _ := .word hc hdigit hword
    rw [Piece.while, List.takeWhile_idem, dropWhile_takeWhile] at halone
    exact ⟨cs.takeWhile isWordPart, rfl, scan_eq_ok_iff.2 halone⟩

/-- A lexeme is followed by nothing that would go on with it. -/
theorem endsBefore_rest {c : Char} {cs : List Char} {p : Piece} {l : Lexeme}
    (h : scan c cs = .ok p) (hp : p.lexeme = some l) : l.EndsBefore p.rest := by
  cases scan_eq_ok_iff.1 h with
  | mark hmark =>
    cases hp
    unfold Lexeme.ofMark? at hmark
    split at hmark <;> cases hmark <;> exact fun _ _ => rfl
  | quoted =>
    cases hp
    exact fun _ _ => rfl
  | integer =>
    cases hp
    exact fun _ => eq_false_of_mem_head?_dropWhile
  | word =>
    cases hp
    exact fun _ => eq_false_of_mem_head?_dropWhile
  | _ => cases hp

/-! ## Gaps and lexemes in turn -/

/-- A text that starts `pos` bytes into the source is gaps and lexemes in turn, with these tokens. -/
inductive Tiled : Nat → List Char → List Token → Prop
  | stop {pos : Nat} {gap : List Char} (hgap : Gap gap []) :
    Tiled pos gap [⟨.endOfInput, ⟨pos + byteLength gap, pos + byteLength gap⟩⟩]
  | token {pos : Nat} {gap : List Char} {c : Char} {cs : List Char} {p : Piece} {l : Lexeme}
    {ts : List Token} (hgap : Gap gap (c :: cs)) (hscan : scan c cs = .ok p)
    (hp : p.lexeme = some l)
    (hrest : Tiled (pos + byteLength gap + byteLength p.taken) p.rest ts) :
    Tiled pos (gap ++ c :: cs)
      (⟨l, ⟨pos + byteLength gap, pos + byteLength gap + byteLength p.taken⟩⟩ :: ts)

namespace Tiled

/-- A piece in front of a text goes to its first gap. -/
theorem cons_gap {pos : Nat} {piece cs : List Char} {ts : List Token} (hpiece : GapPiece piece cs)
    (h : Tiled (pos + byteLength piece) cs ts) : Tiled pos (piece ++ cs) ts := by
  cases h with
  | stop hgap =>
    rw [Nat.add_assoc, ← byteLength_append]
    exact .stop (.cons (by rwa [List.append_nil]) hgap)
  | token hgap hscan hp hrest =>
    rw [Nat.add_assoc pos, ← byteLength_append] at hrest ⊢
    rw [← List.append_assoc]
    exact .token (.cons hpiece hgap) hscan hp hrest

theorem of_tokenized {pos : Nat} {cs : List Char} {ts : List Token} (h : Tokenized pos cs ts) :
    Tiled pos cs ts := by
  induction h with
  | nil pos => exact .stop .nil
  | lexeme hscan hp _ ih => exact .token .nil hscan hp ih
  | gap hscan hp _ ih =>
    rw [← taken_append_rest hscan]
    exact ih.cons_gap (gapPiece_of_scan hscan hp)

end Tiled

/-- The characters are read as the lexeme, in front of the others; the end of input is no characters
in front of none. -/
inductive Reads : Lexeme → List Char → List Char → Prop
  | lexeme {c : Char} {cs : List Char} {p : Piece} {l : Lexeme} (h : scan c cs = .ok p)
    (hp : p.lexeme = some l) : Reads l p.taken p.rest
  | endOfInput : Reads .endOfInput [] []

namespace Reads

variable {l : Lexeme} {taken rest : List Char}

theorem taken_eq_nil_iff (h : Reads l taken rest) : taken = [] ↔ l = .endOfInput := by
  cases h with
  | lexeme hscan hp =>
    refine iff_of_false (taken_ne_nil hscan) ?_
    rintro rfl
    exact lexeme_ne_endOfInput hscan hp
  | endOfInput => simp

theorem endsBefore (h : Reads l taken rest) : l.EndsBefore rest := by
  cases h with
  | lexeme hscan hp => exact endsBefore_rest hscan hp
  | endOfInput => exact fun c hc => by cases hc

theorem rest_eq_nil (h : Reads l taken rest) (hl : l = .endOfInput) : rest = [] := by
  subst hl
  cases h with
  | lexeme hscan hp => exact absurd hp (lexeme_ne_endOfInput hscan)
  | endOfInput => rfl

/-- The characters alone have the lexeme as their only token. -/
theorem tokensFrom_taken (h : Reads l taken rest) (hl : l ≠ .endOfInput) :
    tokensFrom 0 taken = .ok [⟨l, ⟨0, byteLength taken⟩⟩,
      ⟨.endOfInput, ⟨byteLength taken, byteLength taken⟩⟩] := by
  cases h with
  | @lexeme c _ _ _ hscan hp =>
    obtain ⟨ds, htaken, halone⟩ := exists_scan_taken hscan hp
    have htokens : Tokenized 0 (c :: ds) _ := .lexeme halone rfl (.nil _)
    rw [Nat.zero_add] at htokens
    rw [htaken]
    exact tokenized_iff.1 htokens
  | endOfInput => exact absurd rfl hl

end Reads

namespace Tiled

variable {pos : Nat} {cs : List Char} {ts : List Token}

/-- Where the last of some tokens ends that stand behind an offset. -/
def lastStop (pos : Nat) (ts : List Token) : Nat := ts.foldl (fun _ t => t.span.stop) pos

/-- In front of a token there is a gap, and in front of that all that belongs to the tokens before
it. -/
theorem exists_split (h : Tiled pos cs ts) {before after : List Token} {t : Token}
    (hts : ts = before ++ t :: after) :
    ∃ front gap taken rest, cs = front ++ gap ++ taken ++ rest ∧
      lastStop pos before = pos + byteLength front ∧
      t.span.start = pos + byteLength (front ++ gap) ∧
      t.span.stop = pos + byteLength (front ++ gap ++ taken) ∧
      Gap gap (taken ++ rest) ∧ Reads t.lexeme taken rest := by
  induction h generalizing before with
  | @stop pos gap hgap =>
    cases before with
    | nil =>
      obtain ⟨rfl, rfl⟩ := List.cons.inj hts
      exact ⟨[], gap, [], [], by simp, rfl, by simp, by simp, by simpa using hgap, .endOfInput⟩
    | cons t' before => simp at hts
  | @token pos gap c cs p l us hgap hscan hp hrest ih =>
    rw [← taken_append_rest hscan] at hgap ⊢
    cases before with
    | nil =>
      obtain ⟨rfl, rfl⟩ := List.cons.inj hts
      exact ⟨[], gap, p.taken, p.rest, by simp, rfl, by simp, by simp [Nat.add_assoc], hgap,
        .lexeme hscan hp⟩
    | cons t' before =>
      obtain ⟨rfl, hus⟩ := List.cons.inj hts
      obtain ⟨front, gap', taken, rest, hcs, hlast, hstart, hstop, hgap', hreads⟩ := ih hus
      refine ⟨gap ++ p.taken ++ front, gap', taken, rest, ?_, ?_, ?_, ?_, hgap', hreads⟩
      · simp [hcs]
      · exact hlast.trans (by simp [Nat.add_assoc])
      · exact hstart.trans (by simp [Nat.add_assoc])
      · exact hstop.trans (by simp [Nat.add_assoc])

theorem pos_le_start (h : Tiled pos cs ts) : ∀ t ∈ ts, pos ≤ t.span.start := by
  induction h with
  | stop hgap => simp
  | token hgap hscan hp hrest ih =>
    refine List.forall_mem_cons.2 ⟨Nat.le_add_right _ _, fun t ht => ?_⟩
    have hstart := ih t ht
    omega

/-- Each token begins behind the tokens in front of it. -/
theorem pairwise (h : Tiled pos cs ts) :
    ts.Pairwise fun t u => t.span.start < u.span.start ∧ t.span.stop ≤ u.span.start := by
  induction h with
  | stop hgap => simp
  | token hgap hscan hp hrest ih =>
    refine List.pairwise_cons.2 ⟨fun u hu => ?_, ih⟩
    have hstart := hrest.pos_le_start u hu
    have htaken := byteLength_pos (taken_ne_nil hscan)
    dsimp only
    omega

end Tiled

/-! ## The tokens of a text -/

/-- Only blanks and comments stand in the text between two offsets. -/
def GapBetween (text : String) (i j : Nat) : Prop :=
  ∃ front gap back, text.toList = front ++ gap ++ back ∧ i = byteLength front ∧
    j = byteLength (front ++ gap) ∧ Gap gap back

/-- Tokens that account for all of a text. -/
structure Tiling (text : String) (ts : List Token) : Prop where
  /-- The last token, and no other, is the end of input, and stands at the end of the text. -/
  closed : ∃ front, ts = front ++ [⟨.endOfInput, ⟨text.utf8ByteSize, text.utf8ByteSize⟩⟩] ∧
    ∀ t ∈ front, t.lexeme ≠ .endOfInput
  /-- Tokens lie in the text, and begin and end between characters. -/
  within : ∀ t ∈ ts, t.span.Within text
  /-- All tokens but the end of input have characters of their own. -/
  isEmpty_iff : ∀ t ∈ ts, t.span.isEmpty = true ↔ t.lexeme = .endOfInput
  /-- Each token begins behind those in front of it. -/
  increasing : ts.Pairwise fun t u => t.span.start < u.span.start ∧ t.span.stop ≤ u.span.start
  gapFirst : ∀ t ∈ ts.head?, GapBetween text 0 t.span.start
  gapBetween : ∀ before t u after, ts = before ++ t :: u :: after →
    GapBetween text t.span.stop u.span.start
  /-- The characters of a token, taken alone, are read as the same lexeme. -/
  alone : ∀ t ∈ ts, t.lexeme ≠ .endOfInput → ∃ s, t.span.Holds text s ∧
    tokenize s = .ok [⟨t.lexeme, ⟨0, s.utf8ByteSize⟩⟩,
      ⟨.endOfInput, ⟨s.utf8ByteSize, s.utf8ByteSize⟩⟩]
  /-- The character behind a word does not belong in a word, and the one behind an integer is no
  digit. -/
  maximal : ∀ t ∈ ts, ∀ front c back, text.toList = front ++ c :: back →
    t.span.stop = byteLength front → t.lexeme.goesOn c = false

/-- Two fronts of a text with the same number of bytes are the same. -/
theorem append_inj_of_byteLength {cs ds cs' ds' : List Char} (h : cs ++ ds = cs' ++ ds')
    (hlength : byteLength cs = byteLength cs') : cs = cs' ∧ ds = ds' := by
  induction cs generalizing cs' with
  | nil =>
    cases cs' with
    | nil => exact ⟨rfl, h⟩
    | cons c cs' => exact absurd hlength (byteLength_pos (List.cons_ne_nil c cs')).ne
  | cons c cs ih =>
    cases cs' with
    | nil => exact absurd hlength (byteLength_pos (List.cons_ne_nil c cs)).ne'
    | cons c' cs' =>
      obtain ⟨rfl, hrest⟩ := List.cons.inj h
      obtain ⟨rfl, rfl⟩ := ih hrest (Nat.add_left_cancel hlength)
      exact ⟨rfl, rfl⟩

section Tokenize

variable {text : String} {ts : List Token}

/-- The text in front of a token, that of the token and that behind it. -/
theorem exists_split_of_tokenize (h : tokenize text = .ok ts) {before after : List Token} {t : Token}
    (hts : ts = before ++ t :: after) :
    ∃ front gap taken rest, text.toList = front ++ gap ++ taken ++ rest ∧
      Tiled.lastStop 0 before = byteLength front ∧ t.span.start = byteLength (front ++ gap) ∧
      t.span.stop = byteLength (front ++ gap ++ taken) ∧ Gap gap (taken ++ rest) ∧
      Reads t.lexeme taken rest := by
  simpa using (Tiled.of_tokenized (tokenized_iff.2 h)).exists_split hts

/-- A token stands in the text with the characters from which its lexeme is read. -/
theorem exists_reads_of_mem (h : tokenize text = .ok ts) {t : Token} (ht : t ∈ ts) :
    ∃ front taken rest, text.toList = front ++ taken ++ rest ∧ t.span.start = byteLength front ∧
      t.span.stop = byteLength (front ++ taken) ∧ Reads t.lexeme taken rest := by
  obtain ⟨before, after, hts⟩ := List.append_of_mem ht
  obtain ⟨front, gap, taken, rest, htext, -, hstart, hstop, -, hreads⟩ :=
    exists_split_of_tokenize h hts
  exact ⟨front ++ gap, taken, rest, htext, hstart, hstop, hreads⟩

/-- The last token is the end of input, at the end of the text. -/
theorem exists_front_of_tokenize (h : tokenize text = .ok ts) :
    ∃ front, ts = front ++ [⟨.endOfInput, ⟨text.utf8ByteSize, text.utf8ByteSize⟩⟩] ∧
      ∀ t ∈ front, t.lexeme ≠ .endOfInput := by
  obtain ⟨front, ⟨start, stop⟩, rfl, hfront⟩ := exists_front_of_tokensFrom h
  obtain ⟨before, taken, rest, htext, hstart, hstop, hreads⟩ :=
    exists_reads_of_mem h (List.mem_append_right front List.mem_cons_self)
  obtain rfl := hreads.taken_eq_nil_iff.2 rfl
  obtain rfl := hreads.rest_eq_nil rfl
  rw [List.append_nil, List.append_nil] at htext
  rw [List.append_nil, ← htext, byteLength_toList] at hstop
  rw [← htext, byteLength_toList] at hstart
  obtain rfl : start = _ := hstart
  obtain rfl : stop = _ := hstop
  exact ⟨front, rfl, hfront⟩

/-- **Tokens tile the text.** If a text has tokens, they lie in it one behind the other, the end of
input last; between them, and in front of the first, there are only blanks and comments; each is read
from its own characters, and words and integers end where they cannot go on. -/
theorem tokenize_tiling (h : tokenize text = .ok ts) : Tiling text ts where
  closed := exists_front_of_tokenize h
  within := by
    intro t ht
    obtain ⟨front, taken, rest, htext, hstart, hstop, -⟩ := exists_reads_of_mem h ht
    exact (Span.holds_of_toList htext hstart hstop).within
  isEmpty_iff := by
    intro t ht
    obtain ⟨front, taken, rest, -, hstart, hstop, hreads⟩ := exists_reads_of_mem h ht
    rw [← hreads.taken_eq_nil_iff, Span.isEmpty, beq_iff_eq, hstart, hstop, byteLength_append]
    constructor
    · intro hempty
      by_contra htaken
      have hpos := byteLength_pos htaken
      omega
    · rintro rfl
      rfl
  increasing := (Tiled.of_tokenized (tokenized_iff.2 h)).pairwise
  gapFirst := by
    intro t ht
    obtain ⟨after, rfl⟩ := List.head?_eq_some_iff.1 ht
    have hsplit : t :: after = [] ++ t :: after := rfl
    obtain ⟨front, gap, taken, rest, htext, hlast, hstart, -, hgap, -⟩ :=
      exists_split_of_tokenize h hsplit
    rw [List.append_assoc] at htext
    exact ⟨front, gap, taken ++ rest, htext, hlast, hstart, hgap⟩
  gapBetween := by
    intro before t u after hts
    have hsplit : ts = (before ++ [t]) ++ u :: after := by simp [hts]
    obtain ⟨front, gap, taken, rest, htext, hlast, hstart, -, hgap, -⟩ :=
      exists_split_of_tokenize h hsplit
    rw [List.append_assoc] at htext
    rw [Tiled.lastStop, List.foldl_append] at hlast
    exact ⟨front, gap, taken ++ rest, htext, hlast, hstart, hgap⟩
  alone := by
    intro t ht hend
    obtain ⟨front, taken, rest, htext, hstart, hstop, hreads⟩ := exists_reads_of_mem h ht
    refine ⟨String.ofList taken, Span.holds_of_toList htext hstart hstop, ?_⟩
    rw [tokenize, String.toList_ofList, utf8ByteSize_ofList]
    exact hreads.tokensFrom_taken hend
  maximal := by
    intro t ht front c back htext hstop
    obtain ⟨front', taken, rest, htext', -, hstop', hreads⟩ := exists_reads_of_mem h ht
    obtain ⟨-, rfl⟩ :=
      append_inj_of_byteLength (htext'.symm.trans htext) (hstop'.symm.trans hstop)
    exact hreads.endsBefore c rfl

end Tokenize

/-- A text in which one thing stands right behind the other. -/
def denseText : String := "/**/1a.b/*/*/\"\u00e9\\n\"-23// \u00e9"

set_option maxRecDepth 4000 in
theorem tokenize_tiling_denseText :
    ∃ ts, tokenize denseText = .ok ts ∧ Tiling denseText ts ∧
      ts = [⟨.integer 1, ⟨4, 5⟩⟩, ⟨.word "a.b", ⟨5, 8⟩⟩, ⟨.quoted "\u00e9\n", ⟨13, 19⟩⟩,
        ⟨.integer (-23), ⟨19, 22⟩⟩, ⟨.endOfInput, ⟨27, 27⟩⟩] := by
  have htext : denseText.toList = _ := String.toList_ofList
  have htokens : tokenize denseText =
      .ok [⟨.integer 1, ⟨4, 5⟩⟩, ⟨.word "a.b", ⟨5, 8⟩⟩, ⟨.quoted "\u00e9\n", ⟨13, 19⟩⟩,
        ⟨.integer (-23), ⟨19, 22⟩⟩, ⟨.endOfInput, ⟨27, 27⟩⟩] := by
    rw [tokenize, htext]
    decide +kernel
  exact ⟨_, htokens, tokenize_tiling htokens, rfl⟩

end Metamodel
