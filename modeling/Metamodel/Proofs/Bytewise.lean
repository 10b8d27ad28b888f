import Metamodel.Proofs.LineBreaks
import Metamodel.Proofs.Offsets
import Metamodel.Proofs.Spelling
import Metamodel.Text.Bytes

set_option autoImplicit false

/-! # Reading bytes in place reads the same tokens

On every text the scanner that moves through bytes has a result, and it is that of `tokenize`
(`Bytewise.tokenize_eq`). Between two steps the offset stands between characters. Within words and
integers it does so too, since these are ASCII, and so it does where the scanner looks ahead, since
that is behind an ASCII character. Comments are skipped byte by byte, whatever characters they hold;
they end where an ASCII character is found, and no byte of another character can be taken for one
(`Bytewise.takeWhile_latin`, `Bytewise.closeComment_eq`). -/

namespace Metamodel

namespace Bytewise

/-! ## Bytes and characters -/

/-- The bytes of some characters, as characters of the same numbers. -/
def latin (cs : List Char) : List Char := (cs.flatMap String.utf8EncodeChar).map Char.ofUInt8

theorem latin_cons (c : Char) (cs : List Char) : latin (c :: cs) = latin [c] ++ latin cs := by
  simp [latin]

theorem latin_append (cs ds : List Char) : latin (cs ++ ds) = latin cs ++ latin ds := by
  simp [latin]

theorem length_latin (cs : List Char) : (latin cs).length = byteLength cs := by
  induction cs with
  | nil => rfl
  | cons c cs ih =>
    rw [latin_cons, List.length_append, ih, byteLength_cons]
    simp [latin]

theorem utf8Size_of_lt {c : Char} (h : c.toNat < 128) : c.utf8Size = 1 := by
  rw [Char.utf8Size_eq_one_iff, UInt32.le_iff_toNat_le]
  exact Nat.le_of_lt_succ h

/-- An ASCII character is its own byte. -/
theorem latin_of_lt {c : Char} (h : c.toNat < 128) : latin [c] = [c] := by
  have hbyte : Char.ofUInt8 c.val.toUInt8 = c := by
    apply Char.ext
    apply UInt32.toNat_inj.1
    calc
      (Char.ofUInt8 c.val.toUInt8).val.toNat = c.val.toUInt8.toNat := UInt8.toNat_toUInt32 _
      _ = c.val.toNat % 256 := UInt32.toNat_toUInt8 _
      _ = c.val.toNat := Nat.mod_eq_of_lt (Nat.lt_trans h (by decide))
  rw [latin, List.flatMap_singleton, String.utf8EncodeChar_eq_singleton (utf8Size_of_lt h),
    List.map_singleton, hbyte]

/-- The bytes of other characters are no ASCII characters. -/
theorem le_of_mem_latin {c b : Char} (h : 128 ≤ c.toNat) (hb : b ∈ latin [c]) : 128 ≤ b.toNat := by
  have hc : ¬ c.val.toNat ≤ 127 := Nat.not_le.2 h
  have hbyte : ∀ n : Nat, (Char.ofUInt8 (UInt8.ofNat n)).toNat = n % 256 := by
    intro n
    exact (UInt8.toNat_toUInt32 _).trans UInt8.toNat_ofNat'
  simp only [latin, List.flatMap_singleton, String.utf8EncodeChar, if_neg hc] at hb
  obtain ⟨x, hx, rfl⟩ := List.mem_map.1 hb
  -- The first byte is 192 or more and the others are 128 or more, whatever the length.
  split_ifs at hx <;> simp only [List.mem_cons, List.not_mem_nil, or_false] at hx
  · rcases hx with rfl | rfl <;> rw [hbyte] <;> omega
  · rcases hx with rfl | rfl | rfl <;> rw [hbyte] <;> omega
  · rcases hx with rfl | rfl | rfl | rfl <;> rw [hbyte] <;> omega

/-- Only ASCII characters belong to the class. -/
def IsAscii (p : Char → Bool) : Prop := ∀ c, p c = true → c.toNat < 128

/-- Whether a character is in a class of ASCII characters can be told from each of its bytes. -/
theorem IsAscii.apply_latin {p : Char → Bool} (hp : IsAscii p) {c b : Char} (hb : b ∈ latin [c]) :
    p b = p c := by
  by_cases hc : c.toNat < 128
  · rw [latin_of_lt hc, List.mem_singleton] at hb
    rw [hb]
  · have hb := le_of_mem_latin (Nat.not_lt.1 hc) hb
    rw [Bool.eq_false_iff.2 fun h => absurd (hp b h) (Nat.not_lt.2 hb),
      Bool.eq_false_iff.2 fun h => absurd (hp c h) hc]

theorem isAscii_beq {d : Char} (hd : d.toNat < 128) : IsAscii (· == d) := by
  intro c hc
  rwa [beq_iff_eq.1 hc]

theorem isAscii_isDigit : IsAscii Char.isDigit := by
  intro c hc
  have hle : c.toNat ≤ '9'.toNat :=
    UInt32.le_iff_toNat_le.1 (of_decide_eq_true (Bool.and_eq_true_iff.1 hc).2)
  exact lt_of_le_of_lt hle (by decide)

theorem isAscii_isAlpha : IsAscii Char.isAlpha := by
  intro c hc
  rcases Bool.or_eq_true_iff.1 hc with hupper | hlower
  · have hle : c.toNat ≤ 'Z'.toNat :=
      UInt32.le_iff_toNat_le.1 (of_decide_eq_true hupper).2
    exact lt_of_le_of_lt hle (by decide)
  · have hle : c.toNat ≤ 'z'.toNat :=
      UInt32.le_iff_toNat_le.1 (of_decide_eq_true (Bool.and_eq_true_iff.1 hlower).2)
    exact lt_of_le_of_lt hle (by decide)

theorem isAscii_isWordPart : IsAscii isWordPart := by
  intro c hc
  simp only [isWordPart, Char.isAlphanum, Bool.or_eq_true] at hc
  obtain ((hletter | hdigit) | hline) | hdot := hc
  · exact isAscii_isAlpha c hletter
  · exact isAscii_isDigit c hdigit
  · exact isAscii_beq (d := '_') (by decide) c hline
  · exact isAscii_beq (d := '.') (by decide) c hdot

theorem isWordPart_of_isWordStart {c : Char} (h : isWordStart c = true) : isWordPart c = true := by
  rcases Bool.or_eq_true_iff.1 h with hletter | hline
  · simp [isWordPart, Char.isAlphanum, hletter]
  · simp [isWordPart, hline]

/-- Every character has a first byte. -/
theorem exists_latin_eq_cons (c : Char) : ∃ b bs, latin [c] = b :: bs := by
  refine List.exists_cons_of_length_pos ?_
  rw [length_latin]
  exact byteLength_pos (List.cons_ne_nil c [])

theorem IsAscii.any_head?_latin {p : Char → Bool} (hp : IsAscii p) (cs : List Char) :
    (latin cs).head?.any p = cs.head?.any p := by
  cases cs with
  | nil => rfl
  | cons c cs =>
    obtain ⟨b, bs, hbs⟩ := exists_latin_eq_cons c
    have hb : p b = p c := hp.apply_latin (by simp [hbs])
    rw [latin_cons, hbs]
    exact hb

theorem head?_latin_eq_some_iff {d : Char} (hd : d.toNat < 128) (cs : List Char) :
    (latin cs).head? = some d ↔ cs.head? = some d := by
  have hiff : ∀ o : Option Char, o = some d ↔ o.any (· == d) = true := by
    intro o
    cases o <;> simp
  rw [hiff, hiff, (isAscii_beq hd).any_head?_latin]

/-- What is taken from the bytes is the bytes of what is taken from the characters. -/
theorem takeWhile_latin {p : Char → Bool} (hp : ∀ c, ∀ b ∈ latin [c], p b = p c) (cs : List Char) :
    (latin cs).takeWhile p = latin (cs.takeWhile p) := by
  induction cs with
  | nil => rfl
  | cons c cs ih =>
    rw [latin_cons]
    cases hc : p c with
    | true =>
      have hall : ∀ b ∈ latin [c], p b = true := fun b hb => (hp c b hb).trans hc
      rw [List.takeWhile_append_of_pos hall, ih, List.takeWhile_cons_of_pos hc, ← latin_cons]
    | false =>
      obtain ⟨b, bs, hbs⟩ := exists_latin_eq_cons c
      have hb : p b = false := (hp c b (by simp [hbs])).trans hc
      rw [hbs, List.cons_append, List.takeWhile_cons_of_neg (by simp [hb]),
        List.takeWhile_cons_of_neg (by simp [hc])]
      rfl

theorem splitComment_append_of_notMem {bs : List Char} (h : '*' ∉ bs) (cs : List Char) :
    splitComment (bs ++ cs) = (splitComment cs).map fun p => (bs ++ p.1, p.2) := by
  induction bs with
  | nil => simp
  | cons b bs ih =>
    rw [List.mem_cons, not_or] at h
    rw [List.cons_append, splitComment_cons fun hb => absurd hb.symm h.1, ih h.2, Option.map_map]
    rfl

/-- A comment ends in the bytes where it ends in the characters. -/
theorem splitComment_latin (cs : List Char) :
    splitComment (latin cs) = (splitComment cs).map fun p => (latin p.1, latin p.2) := by
  induction cs using splitComment.induct with
  | case1 => rfl
  | case2 cs =>
    rw [latin_cons, latin_cons '/', latin_of_lt (by decide), latin_of_lt (by decide)]
    rfl
  | case3 c cs hc ih =>
    have hopen := head?_ne_of_not_closed hc
    have hmap : ((fun p => (latin p.1, latin p.2)) ∘ fun p : List Char × List Char =>
        (c :: p.1, p.2)) = fun p => (latin [c] ++ latin p.1, latin p.2) :=
      funext fun p => by rw [Function.comp, latin_cons]
    rw [splitComment_cons hopen, latin_cons, Option.map_map, hmap]
    by_cases hlt : c.toNat < 128
    · have hopen' : c = '*' → (latin cs).head? ≠ some '/' := by
        rw [Ne, head?_latin_eq_some_iff (by decide)]
        exact hopen
      rw [latin_of_lt hlt, List.singleton_append, splitComment_cons hopen', ih, Option.map_map]
      rfl
    · have hstar : '*' ∉ latin [c] := by
        intro hmem
        exact absurd (le_of_mem_latin (Nat.not_lt.1 hlt) hmem) (by decide)
      rw [splitComment_append_of_notMem hstar, ih, Option.map_map]
      rfl

/-! ## What stands behind an offset -/

section Text

variable {text : String}

/-- The bytes from an offset on. -/
def bytesFrom (text : String) (i : Nat) : List Char := (latin text.toList).drop i

theorem tail_bytesFrom (i : Nat) : (bytesFrom text i).tail = bytesFrom text (i + 1) := by
  rw [bytesFrom, List.tail_drop, bytesFrom]

theorem byteAt_eq (i : Nat) : byteAt text i = (bytesFrom text i).head? := by
  have hbytes : text.toUTF8 = (text.toList.flatMap String.utf8EncodeChar).toByteArray := by
    rw [String.toUTF8_eq_toByteArray, ← String.ofList_toList (s := text), String.toByteArray_ofList,
      String.toList_ofList]
    rfl
  rw [bytesFrom, List.head?_drop, latin, List.getElem?_map, byteAt, hbytes]
  refine congrArg (Option.map Char.ofUInt8) ?_
  simp [getElem?_def]

theorem utf8ByteSize_le_of_bytesFrom {i : Nat} (h : bytesFrom text i = []) :
    text.utf8ByteSize ≤ i := by
  rwa [bytesFrom, List.drop_eq_nil_iff, length_latin, byteLength_toList] at h

theorem of_bytesFrom_eq_cons {i : Nat} {b : Char} {bs : List Char}
    (h : bytesFrom text i = b :: bs) :
    i < text.utf8ByteSize ∧ byteAt text i = some b ∧ bytesFrom text (i + 1) = bs := by
  refine ⟨?_, ?_, ?_⟩
  · by_contra hi
    have hlength := congrArg List.length h
    rw [bytesFrom, List.length_drop, length_latin, byteLength_toList, List.length_cons] at hlength
    omega
  · rw [byteAt_eq, h, List.head?_cons]
  · rw [← tail_bytesFrom, h, List.tail_cons]

/-- Skipping stops where the bytes first fail. -/
theorem skipWhile_byteAt (p : Char → Bool) (i : Nat) :
    skipWhile text (byteAt text) p i = some (i + ((bytesFrom text i).takeWhile p).length) := by
  induction hbytes : bytesFrom text i generalizing i with
  | nil =>
    have hi := utf8ByteSize_le_of_bytesFrom hbytes
    rw [skipWhile, if_neg (Nat.not_lt.2 hi)]
    rfl
  | cons b bs ih =>
    obtain ⟨hi, hb, hbs⟩ := of_bytesFrom_eq_cons hbytes
    rw [skipWhile, if_pos hi, hb, Option.bind_eq_bind, Option.bind_some]
    cases hp : p b with
    | true =>
      rw [if_pos rfl, ih (i + 1) hbs, List.takeWhile_cons_of_pos hp, List.length_cons,
        Nat.add_right_comm, Nat.add_assoc]
    | false =>
      rw [if_neg Bool.false_ne_true, List.takeWhile_cons_of_neg (by simp [hp])]
      rfl

/-- A comment is closed behind the first closing mark in the bytes. -/
theorem closeComment_eq_splitComment (i : Nat) :
    closeComment text (byteAt text) i =
      some ((splitComment (bytesFrom text i)).map fun p => i + p.1.length) := by
  induction hbytes : bytesFrom text i generalizing i with
  | nil =>
    have hi := utf8ByteSize_le_of_bytesFrom hbytes
    rw [closeComment, if_neg (by omega)]
    rfl
  | cons b bs ih =>
    obtain ⟨hi, hb, hbs⟩ := of_bytesFrom_eq_cons hbytes
    have hnext : (splitComment bs).map (fun p => i + 1 + p.1.length) =
        ((splitComment bs).map fun p => (b :: p.1, p.2)).map fun p => i + p.1.length := by
      rw [Option.map_map]
      congr 1
      funext p
      simp only [Function.comp_apply, List.length_cons]
      omega
    cases bs with
    | nil =>
      have hlast := utf8ByteSize_le_of_bytesFrom hbs
      rw [closeComment, if_neg (by omega), splitComment_cons (by simp)]
      rfl
    | cons d ds =>
      obtain ⟨hi', hd, -⟩ := of_bytesFrom_eq_cons hbs
      rw [closeComment, if_pos hi', hb, hd]
      simp only [Option.bind_eq_bind, Option.bind_some, ih (i + 1) hbs, hnext]
      by_cases hclose : b = '*' ∧ d = '/'
      · obtain ⟨rfl, rfl⟩ := hclose
        rfl
      · have hopen : b = '*' → (d :: ds).head? ≠ some '/' := by
          rintro rfl hslash
          exact hclose ⟨rfl, Option.some.inj hslash⟩
        rw [splitComment_cons hopen]
        split_ifs with hstar hslash
        · exact absurd ⟨hstar, hslash⟩ hclose
        · rfl
        · rfl

/-! ## Where characters begin -/

variable {front cs : List Char}

/-- Behind a character there is another cut. -/
theorem cut_behind {c : Char} (h : text.toList = front ++ c :: cs) :
    text.toList = (front ++ [c]) ++ cs := by
  rw [h, List.append_assoc, List.singleton_append]

theorem byteLength_concat {c : Char} (hc : c.toNat < 128) (front : List Char) :
    byteLength (front ++ [c]) = byteLength front + 1 := by
  rw [byteLength_append, byteLength_cons, utf8Size_of_lt hc, byteLength_nil]

theorem bytesFrom_byteLength (h : text.toList = front ++ cs) :
    bytesFrom text (byteLength front) = latin cs := by
  rw [bytesFrom, h, latin_append, ← length_latin, List.drop_left]

theorem byteAt_byteLength (h : text.toList = front ++ cs) :
    byteAt text (byteLength front) = (latin cs).head? := by
  rw [byteAt_eq, bytesFrom_byteLength h]

theorem isValid_byteLength (h : text.toList = front ++ cs) :
    String.Pos.Raw.IsValid text ⟨byteLength front⟩ := by
  have hcut : text.toList = front ++ [] ++ cs := by rw [h, List.append_nil]
  have hholds : Span.Holds ⟨byteLength front, byteLength (front ++ [])⟩ text (String.ofList []) :=
    Span.holds_of_toList hcut rfl rfl
  exact hholds.within.startsBetween

theorem firstByteAt_byteLength (h : text.toList = front ++ cs) :
    firstByteAt text (byteLength front) = (latin cs).head? := by
  rw [firstByteAt, if_pos (isValid_byteLength h), byteAt_byteLength h]

theorem lt_utf8ByteSize_iff (h : text.toList = front ++ cs) :
    byteLength front < text.utf8ByteSize ↔ cs ≠ [] := by
  rw [← byteLength_toList, h, byteLength_append]
  constructor
  · rintro hlt rfl
    exact absurd hlt (by simp)
  · intro hne
    exact Nat.lt_add_of_pos_right (byteLength_pos hne)

/-- Looking ahead sees the next character, if it is ASCII. -/
theorem looksAhead_byteLength {p : Char → Bool} (hp : IsAscii p) (h : text.toList = front ++ cs) :
    looksAhead text p (byteLength front) = some (cs.head?.any p) := by
  cases cs with
  | nil =>
    have hend : byteLength front = text.utf8ByteSize := by
      rw [← byteLength_toList, h, List.append_nil]
    rw [looksAhead, if_pos hend]
    rfl
  | cons c cs =>
    have hbehind : byteLength front ≠ text.utf8ByteSize :=
      ((lt_utf8ByteSize_iff h).2 (List.cons_ne_nil c cs)).ne
    obtain ⟨b, bs, hbs⟩ := exists_latin_eq_cons c
    have hb : p b = p c := hp.apply_latin (by simp [hbs])
    rw [looksAhead, if_neg hbehind, firstByteAt_byteLength h, latin_cons, hbs]
    exact congrArg some hb

/-- The text between two cuts. -/
theorem slice_byteLength {s rest : List Char} (h : text.toList = front ++ s ++ rest) :
    slice text (byteLength front) (byteLength (front ++ s)) = some (String.ofList s) := by
  have hholds : Span.Holds ⟨byteLength front, byteLength (front ++ s)⟩ text (String.ofList s) :=
    Span.holds_of_toList h rfl rfl
  have hwithin := hholds.within
  rw [slice, dif_pos ⟨hwithin.ordered, hwithin.startsBetween, hwithin.stopsBetween⟩]
  refine congrArg some (String.toByteArray_inj.1 ?_)
  rw [String.toByteArray_extract]
  exact hholds.extract_eq

/-- All that is left behind a cut. -/
theorem slice_utf8ByteSize (h : text.toList = front ++ cs) :
    slice text (byteLength front) text.utf8ByteSize = some (String.ofList cs) := by
  rw [← byteLength_toList, h]
  exact slice_byteLength (by rw [h, List.append_nil])

-- Within a character nothing begins or ends.
example : slice "é" 0 1 = none ∧ firstByteAt "é" 1 = none ∧ byteAt "é" 2 = none := by
  decide +kernel

/-- Skipping stops behind the characters of a class. -/
theorem skipWhile_byteAt_byteLength {p : Char → Bool} (hp : ∀ c, ∀ b ∈ latin [c], p b = p c)
    (h : text.toList = front ++ cs) :
    skipWhile text (byteAt text) p (byteLength front) =
      some (byteLength (front ++ cs.takeWhile p)) := by
  rw [skipWhile_byteAt, bytesFrom_byteLength h, takeWhile_latin hp, length_latin,
    byteLength_append]

/-- Skipping ASCII characters goes from one character to the next. -/
theorem skipWhile_firstByteAt {p : Char → Bool} (hp : IsAscii p) (h : text.toList = front ++ cs) :
    skipWhile text (firstByteAt text) p (byteLength front) =
      some (byteLength (front ++ cs.takeWhile p)) := by
  induction cs generalizing front with
  | nil =>
    rw [skipWhile, if_neg (by simp [lt_utf8ByteSize_iff h]), List.takeWhile_nil, List.append_nil]
    rfl
  | cons c cs ih =>
    obtain ⟨b, bs, hbs⟩ := exists_latin_eq_cons c
    have hb : p b = p c := hp.apply_latin (by simp [hbs])
    have hlt : byteLength front < text.utf8ByteSize := by simp [lt_utf8ByteSize_iff h]
    rw [skipWhile, if_pos hlt, firstByteAt_byteLength h, latin_cons, hbs, List.cons_append,
      List.head?_cons, Option.bind_eq_bind, Option.bind_some, hb]
    cases hc : p c with
    | true =>
      rw [if_pos rfl, ← byteLength_concat (hp c hc), ih (cut_behind h),
        List.takeWhile_cons_of_pos hc, List.append_assoc, List.singleton_append]
    | false =>
      rw [if_neg Bool.false_ne_true, List.takeWhile_cons_of_neg (by simp [hc]), List.append_nil]
      rfl

/-- A comment is closed behind the first closing mark in the text. -/
theorem closeComment_eq (h : text.toList = front ++ cs) :
    closeComment text (byteAt text) (byteLength front) =
      some ((splitComment cs).map fun p => byteLength (front ++ p.1)) := by
  rw [closeComment_eq_splitComment, bytesFrom_byteLength h, splitComment_latin, Option.map_map]
  simp [Function.comp_def, length_latin]

/-! ## What is found -/

/-- What is found where a quoted text has been read up to an offset. -/
def foundQuote (start pos : Nat) (value : List Char) : QuoteBody → Found
  | .closed text taken _ => .ok (some (.quoted (String.ofList (value ++ text))), pos + byteLength taken)
  | .unclosed => .error ⟨.unclosedQuote, ⟨start, start + 1⟩⟩
  | .badEscape before c =>
    .error ⟨.unknownEscape c,
      ⟨pos + byteLength before, pos + byteLength before + 1 + c.utf8Size⟩⟩

theorem foundQuote_cons (start pos : Nat) (value taken : List Char) (c : Char) (body : QuoteBody) :
    foundQuote start pos value (body.cons c taken) =
      foundQuote start (pos + byteLength taken) (value ++ [c]) body := by
  cases body <;> simp [QuoteBody.cons, foundQuote, Nat.add_assoc]

theorem readQuote_eq (start pos : Nat) (value cs : List Char) :
    readQuote start pos value cs = foundQuote start pos value (scanQuote cs) := by
  induction cs using scanQuote.induct generalizing pos value with
  | case1 => rfl
  | case2 cs =>
    simp only [readQuote, scanQuote, foundQuote, List.append_nil]
    rfl
  | case3 => rfl
  | case4 => rfl
  | case5 c cs d hd ih =>
    simp only [readQuote, scanQuote, hd, foundQuote_cons, ih, Nat.add_assoc]
    rfl
  | case6 c cs hd => simp [readQuote, scanQuote, hd, foundQuote]
  | case7 c cs hquote hfeed hlast hescape ih =>
    have hbackslash := ne_backslash_of_not_escape hlast hescape
    rw [scanQuote_cons hquote hfeed hbackslash, foundQuote_cons, readQuote.eq_def]
    split <;> simp_all

/-- What is found at an offset is what is scanned behind the characters in front of it. -/
def found (front : List Char) : Except LexicalError Piece → Found
  | .error e => .error (e.shift (byteLength front))
  | .ok p => .ok (p.lexeme, byteLength (front ++ p.taken))

section Pieces

variable {c : Char} {rest : List Char}

theorem commentByteAt_outsideComments :
    commentByteAt .outsideComments text = byteAt text := rfl

theorem readLineComment_eq (h : text.toList = front ++ '/' :: '/' :: rest) :
    readLineComment .outsideComments text (byteLength front) =
      some (found front (scanSlash ('/' :: rest))) := by
  have hfeed : ∀ c, ∀ b ∈ latin [c], (b != '\n') = (c != '\n') := by
    intro c b hb
    rw [bne, bne, (isAscii_beq (by decide)).apply_latin hb]
  rw [readLineComment, commentByteAt_outsideComments, skipWhile_byteAt_byteLength hfeed h]
  rfl

theorem readBlockComment_eq (h : text.toList = front ++ '/' :: '*' :: rest) :
    readBlockComment .outsideComments text (byteLength front) =
      some (found front (scanSlash ('*' :: rest))) := by
  have hopen : byteLength front + 2 = byteLength (front ++ ['/', '*']) := by
    rw [byteLength_append]
    rfl
  have hcut : text.toList = (front ++ ['/', '*']) ++ rest := by
    rw [h, List.append_assoc]
    rfl
  rw [readBlockComment, commentByteAt_outsideComments, hopen, closeComment_eq hcut, scanSlash]
  cases splitComment rest with
  | none =>
    simp only [found, LexicalError.shift, Span.shift, ← hopen]
    rfl
  | some p => simp [found]

theorem readQuoted_eq (h : text.toList = front ++ '"' :: rest) :
    readQuoted text (byteLength front) = some (found front (scanQuoted rest)) := by
  have hopen : byteLength (front ++ ['"']) = byteLength front + 1 := byteLength_concat (by decide) _
  rw [readQuoted, ← hopen, slice_utf8ByteSize (cut_behind h), Option.bind_eq_bind,
    Option.bind_some, readQuote_eq, String.toList_ofList, scanQuoted, hopen]
  cases scanQuote rest with
  | closed => simp [foundQuote, found, ← hopen, Nat.add_assoc]
  | unclosed => rfl
  | badEscape => simp [foundQuote, found, LexicalError.shift, Span.shift, Nat.add_assoc]

theorem readInteger_eq (hc : c.toNat < 128) (h : text.toList = front ++ c :: rest) :
    readInteger text (byteLength front) = some (found front (scanInteger [c] rest)) := by
  have hskip := skipWhile_firstByteAt isAscii_isDigit (cut_behind h)
  have hcut : text.toList =
      front ++ ([c] ++ rest.takeWhile Char.isDigit) ++ rest.dropWhile Char.isDigit := by
    simp [h]
  have hslice := slice_byteLength hcut
  rw [← List.append_assoc] at hslice
  rw [readInteger, ← byteLength_concat hc, hskip, Option.bind_eq_bind, Option.bind_some, hslice,
    Option.bind_eq_bind, Option.bind_some, String.toList_ofList, scanInteger]
  cases Lexeme.ofInteger? ([c] ++ rest.takeWhile Char.isDigit) with
  | none => simp [found, LexicalError.shift, Span.shift]
  | some lexeme => simp [found]

theorem readWord_eq (hc : isWordStart c = true) (h : text.toList = front ++ c :: rest) :
    readWord text (byteLength front) = some (found front (.ok
      (Piece.while isWordPart [c] rest fun text => some (.word (String.ofList text))))) := by
  have htake : (c :: rest).takeWhile isWordPart = [c] ++ rest.takeWhile isWordPart :=
    List.takeWhile_cons_of_pos (isWordPart_of_isWordStart hc)
  have hskip := skipWhile_firstByteAt isAscii_isWordPart h
  have hcut : text.toList =
      front ++ ([c] ++ rest.takeWhile isWordPart) ++ rest.dropWhile isWordPart := by
    simp [h]
  rw [readWord, hskip, Option.bind_eq_bind, Option.bind_some, htake, slice_byteLength hcut]
  rfl

theorem reportCharacter_eq (h : text.toList = front ++ c :: rest) :
    reportCharacter text (byteLength front) =
      some (found front (.error ⟨.unexpectedCharacter c, ⟨0, c.utf8Size⟩⟩)) := by
  rw [reportCharacter, slice_utf8ByteSize h, Option.bind_eq_bind, Option.bind_some,
    String.toList_ofList]
  rfl

/-- Other characters begin nothing. -/
theorem begins_nothing_of_le (h : 128 ≤ c.toNat) :
    isBlank c = false ∧ c ≠ '/' ∧ Lexeme.ofMark? c = none ∧ c ≠ '"' ∧ c ≠ '-' ∧
      c.isDigit = false ∧ isWordStart c = false := by
  have hclass : specialChars.any (fun c => decide (128 ≤ c.toNat)) = false := by decide
  obtain ⟨hblank, hslash, hmark, hquote, hminus⟩ :=
    not_special_of_class hclass (decide_eq_true h)
  refine ⟨hblank, hslash, hmark, hquote, hminus, ?_, ?_⟩
  · rw [Bool.eq_false_iff]
    intro hdigit
    exact absurd (isAscii_isDigit c hdigit) (Nat.not_lt.2 h)
  · rw [Bool.eq_false_iff]
    intro hword
    exact absurd (isAscii_isWordPart c (isWordPart_of_isWordStart hword)) (Nat.not_lt.2 h)

theorem scan_of_le (hc : 128 ≤ c.toNat) (cs : List Char) :
    scan c cs = .error ⟨.unexpectedCharacter c, ⟨0, c.utf8Size⟩⟩ := by
  obtain ⟨hblank, hslash, hmark, hquote, hminus, hdigit, hword⟩ := begins_nothing_of_le hc
  simp [scan, hblank, hslash, hmark, hquote, hminus, hdigit, hword]

theorem readPiece_of_le (hc : 128 ≤ c.toNat) (h : text.toList = front ++ c :: rest) :
    readPiece .outsideComments text (byteLength front) = some (found front (scan c rest)) := by
  obtain ⟨b, bs, hbs⟩ := exists_latin_eq_cons c
  have hfirst : firstByteAt text (byteLength front) = some b := by
    rw [firstByteAt_byteLength h, latin_cons, hbs]
    rfl
  -- The byte is not the character, but begins nothing either.
  have hb : 128 ≤ b.toNat := le_of_mem_latin hc (by simp [hbs])
  obtain ⟨hblank, hslash, hmark, hquote, hminus, hdigit, hword⟩ := begins_nothing_of_le hb
  rw [readPiece, hfirst, scan_of_le hc, ← reportCharacter_eq h]
  simp [hblank, hslash, hmark, hquote, hminus, hdigit, hword]

theorem readSlash_eq (h : text.toList = front ++ '/' :: rest) :
    readSlash .outsideComments text (byteLength front) = some (found front (scanSlash rest)) := by
  have hone : byteLength (front ++ ['/']) = byteLength front + 1 := byteLength_concat (by decide) _
  have hahead : ∀ d : Char, d.toNat < 128 →
      looksAhead text (· == d) (byteLength front + 1) = some (decide (rest.head? = some d)) := by
    intro d hd
    rw [← hone, looksAhead_byteLength (isAscii_beq hd) (cut_behind h)]
    cases rest <;> simp [beq_eq_decide]
  simp only [readSlash, hahead '/' (by decide), hahead '*' (by decide), Option.bind_eq_bind,
    Option.bind_some, decide_eq_true_eq]
  by_cases hline : rest.head? = some '/'
  · rw [if_pos hline]
    obtain ⟨rest, rfl⟩ := List.head?_eq_some_iff.1 hline
    exact readLineComment_eq h
  by_cases hblock : rest.head? = some '*'
  · rw [if_neg hline, if_pos hblock]
    obtain ⟨rest, rfl⟩ := List.head?_eq_some_iff.1 hblock
    exact readBlockComment_eq h
  have hscan : scanSlash rest = .error ⟨.unexpectedCharacter '/', ⟨0, 1⟩⟩ := by
    unfold scanSlash
    split <;> simp_all
  rw [if_neg hline, if_neg hblock, hscan]
  exact reportCharacter_eq h

theorem readPiece_of_lt (hc : c.toNat < 128) (h : text.toList = front ++ c :: rest) :
    readPiece .outsideComments text (byteLength front) = some (found front (scan c rest)) := by
  have hfirst : firstByteAt text (byteLength front) = some c := by
    rw [firstByteAt_byteLength h, latin_cons, latin_of_lt hc]
    rfl
  have hone := byteLength_concat hc front
  rw [readPiece, hfirst, Option.bind_eq_bind, Option.bind_some, scan]
  by_cases hblank : isBlank c = true
  · rw [if_pos hblank, if_pos hblank, ← hone]
    rfl
  rw [if_neg hblank, if_neg hblank]
  by_cases hslash : c = '/'
  · subst hslash
    rw [if_pos rfl, if_pos rfl]
    exact readSlash_eq h
  rw [if_neg hslash, if_neg hslash]
  cases Lexeme.ofMark? c with
  | some mark =>
    rw [← hone]
    rfl
  | none =>
    dsimp only
    by_cases hquote : c = '"'
    · subst hquote
      exact readQuoted_eq h
    rw [if_neg hquote, if_neg hquote]
    by_cases hdigit : c.isDigit = true
    · rw [if_pos hdigit, if_pos (.inl hdigit)]
      exact readInteger_eq hc h
    rw [if_neg hdigit]
    by_cases hminus : c = '-'
    · subst hminus
      have hahead := looksAhead_byteLength isAscii_isDigit (cut_behind h)
      rw [hone] at hahead
      rw [if_pos rfl, readMinus, hahead, Option.bind_eq_bind, Option.bind_some]
      by_cases hnext : rest.head?.any Char.isDigit = true
      · rw [if_pos hnext, if_pos (.inr ⟨rfl, hnext⟩)]
        exact readInteger_eq hc h
      · rw [if_neg hnext, if_neg (by simpa using hnext), if_neg (by decide)]
        exact reportCharacter_eq h
    have hinteger : ¬(c.isDigit = true ∨ c = '-' ∧ rest.head?.any Char.isDigit = true) := by
      simp [hdigit, hminus]
    rw [if_neg hminus, if_neg hinteger]
    split_ifs with hword
    · exact readWord_eq hword h
    · exact reportCharacter_eq h

/-- At each character there is found what is scanned there. -/
theorem readPiece_eq (h : text.toList = front ++ c :: rest) :
    readPiece .outsideComments text (byteLength front) = some (found front (scan c rest)) := by
  rcases Nat.lt_or_ge c.toNat 128 with hc | hc
  · exact readPiece_of_lt hc h
  · exact readPiece_of_le hc h

end Pieces

/-! ## Tokens -/

/-- From one character to the next, the tokens are those of the characters. -/
theorem tokensFrom_eq (h : text.toList = front ++ cs) (tokens : List Token) :
    tokensFrom .outsideComments text (byteLength front) tokens =
      some ((Metamodel.tokensFrom (byteLength front) cs).map (tokens ++ ·)) := by
  induction cs using scan_induction generalizing front tokens with
  | nil =>
    have hsize : text.utf8ByteSize = byteLength front := by
      rw [← byteLength_toList, h, List.append_nil]
    rw [tokensFrom, if_neg (by omega), hsize, Metamodel.tokensFrom]
    rfl
  | error c cs e hscan =>
    have hlt : byteLength front < text.utf8ByteSize := by simp [lt_utf8ByteSize_iff h]
    rw [tokensFrom, if_pos hlt, readPiece_eq h, hscan, tokensFrom_of_error _ hscan]
    rfl
  | piece c cs p hscan ih =>
    have hlt : byteLength front < text.utf8ByteSize := by simp [lt_utf8ByteSize_iff h]
    have hrest : text.toList = (front ++ p.taken) ++ p.rest := by
      rw [h, List.append_assoc, taken_append_rest hscan]
    have hahead : byteLength front < byteLength (front ++ p.taken) := by
      rw [byteLength_append]
      exact Nat.lt_add_of_pos_right (byteLength_pos (taken_ne_nil hscan))
    rw [tokensFrom, if_pos hlt, readPiece_eq h, hscan, found, Option.bind_eq_bind,
      Option.bind_some]
    simp only [if_pos hahead, ih hrest]
    rw [byteLength_append]
    cases hp : p.lexeme with
    | none =>
      rw [tokensFrom_of_gap _ hscan hp]
      simp
    | some l =>
      rw [tokensFrom_of_lexeme _ hscan hp]
      cases Metamodel.tokensFrom (byteLength front + byteLength p.taken) p.rest <;>
        simp [Except.map]

end Text

/-- Whatever the text, all that is read can be read, and the outcome is that of `tokenize`. -/
theorem tokenize_eq (text : String) :
    tokenize .outsideComments text = some (Metamodel.tokenize text) := by
  have hall : text.toList = [] ++ text.toList := rfl
  have hread := tokensFrom_eq hall []
  simp only [List.nil_append] at hread
  rw [tokenize, Metamodel.tokenize]
  exact hread.trans (congrArg some (congrFun Except.map_id _))

end Bytewise

end Metamodel
