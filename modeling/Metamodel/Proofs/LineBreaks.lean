import Metamodel.Proofs.Parsing

set_option autoImplicit false

/-! # Behind a line break

A piece that is read at the end of a text is read in front of a line break in the same way: line
breaks end words, integers and line comments, and quoted texts and block comments are closed by
themselves or not at all (`scan_append_newline`). So a text, a line break and another text have the
tokens of the one and then those of the other (`Tokenized.append_newline`), and these are its own
tokens, as far behind as the text stands (`Tokenized.shift`). -/

namespace Metamodel

/-! ## Lexemes in front of a line break -/

/-- What a line break ends, it ends in the same way in front of more text. -/
theorem takeWhile_append_newline {p : Char → Bool} (hp : p '\n' = false) (cs ds : List Char) :
    (cs ++ '\n' :: ds).takeWhile p = cs.takeWhile p ∧
      (cs ++ '\n' :: ds).dropWhile p = cs.dropWhile p ++ '\n' :: ds := by
  induction cs with
  | nil => simp [hp]
  | cons c cs ih => cases h : p c <;> simp [h, ih]

theorem splitComment_cons {c : Char} {cs : List Char} (h : c = '*' → cs.head? ≠ some '/') :
    splitComment (c :: cs) = (splitComment cs).map fun p => (c :: p.1, p.2) := by
  rw [splitComment.eq_def]
  split
  · next heq => cases heq
  · next heq =>
    cases heq
    exact (h rfl rfl).elim
  · next heq =>
    cases heq
    rfl

theorem head?_ne_of_not_closed {c : Char} {cs : List Char}
    (h : ∀ rest, c = '*' → cs = '/' :: rest → False) : c = '*' → cs.head? ≠ some '/' := by
  intro hstar hslash
  obtain ⟨rest, rfl⟩ := List.head?_eq_some_iff.1 hslash
  exact h rest hstar rfl

theorem splitComment_append_rest {cs taken rest : List Char}
    (h : splitComment cs = some (taken, rest)) (more : List Char) :
    splitComment (cs ++ more) = some (taken, rest ++ more) := by
  induction cs using splitComment.induct generalizing taken rest with
  | case1 => cases h
  | case2 cs =>
    cases h
    rfl
  | case3 c cs hc ih =>
    have hopen := head?_ne_of_not_closed hc
    rw [splitComment_cons hopen] at h
    obtain ⟨p, hp, hcons⟩ := Option.map_eq_some_iff.1 h
    cases hcons
    -- The comment goes on behind `c`, so what follows `c` is not empty and is the same as before.
    have hmore : c = '*' → (cs ++ more).head? ≠ some '/' := by
      cases cs with
      | nil => cases hp
      | cons d ds => exact hopen
    rw [List.cons_append, splitComment_cons hmore, ih hp]
    rfl

/-- A character that is neither a quote nor a line feed nor a backslash stands for itself. -/
theorem scanQuote_cons {c : Char} (hquote : c ≠ '"') (hfeed : c ≠ '\n') (hbackslash : c ≠ '\\')
    (cs : List Char) : scanQuote (c :: cs) = (scanQuote cs).cons c [c] := by
  rw [scanQuote.eq_def]
  split <;> simp_all

theorem ne_backslash_of_not_escape {c : Char} {cs : List Char} (hlast : c = '\\' → cs = [] → False)
    (hescape : ∀ d ds, c = '\\' → cs = d :: ds → False) : c ≠ '\\' := by
  intro hc
  cases cs with
  | nil => exact hlast hc rfl
  | cons d ds => exact hescape d ds hc rfl

theorem scanQuote_append_rest {cs text taken rest : List Char}
    (h : scanQuote cs = .closed text taken rest) (more : List Char) :
    scanQuote (cs ++ more) = .closed text taken (rest ++ more) := by
  induction cs using scanQuote.induct generalizing text taken rest with
  | case1 => cases h
  | case2 cs =>
    cases h
    rfl
  | case3 => cases h
  | case4 => cases h
  | case5 c cs d hd ih =>
    simp only [scanQuote, hd] at h
    obtain ⟨t, u, hbody, rfl, rfl⟩ := QuoteBody.cons_eq_closed h
    simp only [List.cons_append, scanQuote, hd, ih hbody, QuoteBody.cons]
  | case6 c cs hd =>
    simp only [scanQuote, hd] at h
    cases h
  | case7 c cs hquote hfeed hlast hescape ih =>
    have hbackslash := ne_backslash_of_not_escape hlast hescape
    rw [scanQuote_cons hquote hfeed hbackslash] at h
    obtain ⟨t, u, hbody, rfl, rfl⟩ := QuoteBody.cons_eq_closed h
    rw [List.cons_append, scanQuote_cons hquote hfeed hbackslash, ih hbody]
    rfl

theorem scanSlash_append_newline {cs : List Char} {p : Piece} (h : scanSlash cs = .ok p)
    (ds : List Char) :
    scanSlash (cs ++ '\n' :: ds) = .ok { p with rest := p.rest ++ '\n' :: ds } := by
  unfold scanSlash at h
  split at h
  · next rest =>
    cases h
    obtain ⟨htake, hdrop⟩ := takeWhile_append_newline (p := (· != '\n')) rfl rest ds
    simp [scanSlash, Piece.while, htake, hdrop]
  · next rest =>
    split at h
    · next taken rest' hsplit =>
      cases h
      simp only [List.cons_append, scanSlash, splitComment_append_rest hsplit]
    · cases h
  · cases h

theorem scanQuoted_append {cs : List Char} {p : Piece} (h : scanQuoted cs = .ok p)
    (more : List Char) : scanQuoted (cs ++ more) = .ok { p with rest := p.rest ++ more } := by
  unfold scanQuoted at h
  split at h
  · next hbody =>
    cases h
    rw [scanQuoted, scanQuote_append_rest hbody]
  · cases h
  · cases h

theorem scanInteger_append_newline {front cs : List Char} {p : Piece}
    (h : scanInteger front cs = .ok p) (ds : List Char) :
    scanInteger front (cs ++ '\n' :: ds) = .ok { p with rest := p.rest ++ '\n' :: ds } := by
  obtain ⟨htake, hdrop⟩ := takeWhile_append_newline (p := Char.isDigit) rfl cs ds
  simp only [scanInteger, htake, hdrop] at h ⊢
  split at h
  · cases h
    rfl
  · cases h

/-- A piece that is read in front of the end is read in front of a line break. -/
theorem scan_append_newline {c : Char} {cs : List Char} {p : Piece} (h : scan c cs = .ok p)
    (ds : List Char) :
    scan c (cs ++ '\n' :: ds) = .ok { p with rest := p.rest ++ '\n' :: ds } := by
  -- A minus sign at the end has no digit behind it, and none behind a line break.
  have hdigit : (cs ++ '\n' :: ds).head?.any Char.isDigit = cs.head?.any Char.isDigit := by
    cases cs <;> rfl
  obtain ⟨htake, hdrop⟩ := takeWhile_append_newline (p := isWordPart) rfl cs ds
  unfold scan at h ⊢
  rw [hdigit]
  by_cases hblank : isBlank c = true
  · rw [if_pos hblank] at h ⊢
    cases h
    rfl
  rw [if_neg hblank] at h ⊢
  by_cases hslash : c = '/'
  · rw [if_pos hslash] at h ⊢
    exact scanSlash_append_newline h ds
  rw [if_neg hslash] at h ⊢
  cases hmark : Lexeme.ofMark? c with
  | some mark =>
    rw [hmark] at h
    cases h
    rfl
  | none =>
    simp only [hmark] at h ⊢
    split_ifs at h ⊢
    · exact scanQuoted_append h _
    · exact scanInteger_append_newline h ds
    · cases h
      simp [Piece.while, htake, hdrop]

/-! ## The tokens of joined texts -/

namespace Tokenized

/-- A text further in has the same tokens, further in. -/
theorem shift (n : Nat) {pos : Nat} {cs : List Char} {ts : List Token} (h : Tokenized pos cs ts) :
    Tokenized (n + pos) cs (ts.map (Token.relocate (Span.shift n))) := by
  induction h with
  | nil pos => exact .nil (n + pos)
  | lexeme hscan hp _ ih =>
    rw [← Nat.add_assoc] at ih
    simpa [Token.relocate, Span.shift, Nat.add_assoc] using Tokenized.lexeme hscan hp ih
  | gap hscan hp _ ih =>
    rw [← Nat.add_assoc] at ih
    exact .gap hscan hp ih

theorem ne_nil {pos : Nat} {cs : List Char} {ts : List Token} (h : Tokenized pos cs ts) :
    ts ≠ [] := by
  induction h with
  | nil pos => simp
  | lexeme _ _ _ _ => simp
  | gap _ _ _ ih => exact ih

/-- A text, a line break and another text have the tokens of the one and then those of the
other. -/
theorem append_newline {pos : Nat} {cs ds : List Char} {us ts : List Token}
    (hcs : Tokenized pos cs us) (hds : Tokenized (pos + byteLength cs + 1) ds ts) :
    Tokenized pos (cs ++ '\n' :: ds) (us.dropLast ++ ts) := by
  induction hcs with
  | nil pos =>
    have hscan : scan '\n' ds = .ok ⟨none, ['\n'], ds⟩ := rfl
    exact .gap hscan rfl hds
  | @lexeme pos c cs p l us hscan hp hrest ih =>
    rw [← taken_append_rest hscan, byteLength_append, ← Nat.add_assoc] at hds
    rw [List.dropLast_cons_of_ne_nil hrest.ne_nil]
    have htokens := Tokenized.lexeme (scan_append_newline hscan ds) hp (ih hds)
    exact htokens
  | @gap pos c cs p us hscan hp hrest ih =>
    rw [← taken_append_rest hscan, byteLength_append, ← Nat.add_assoc] at hds
    exact .gap (scan_append_newline hscan ds) hp (ih hds)

end Tokenized

end Metamodel
