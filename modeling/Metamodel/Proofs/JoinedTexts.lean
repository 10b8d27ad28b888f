import Metamodel.Proofs.LineBreaks
import Metamodel.Proofs.Offsets

set_option autoImplicit false

/-! # Texts one after the other

Two texts that can be parsed are parsed together with a line break between them. The tokens of the
second are the same as before, only further behind, so they have the same derivation there
(`Derivation.IsOf.append_newline`), whether or not a semicolon could stand in front of it. What the
first text hands on to the second is the package that it gave last: this is the package of the
statements in front of the first package of the second text
(`Derivation.exists_statementsIn_eq`). -/

namespace Metamodel

/-! ## The derivation of a text -/

namespace Derivation

/-- The tokens of the text are those of the derivation and the end of input. -/
def IsOf (d : Derivation) (text : String) : Prop :=
  ∃ stop, tokenize text = .ok (d.tokens ++ [⟨.endOfInput, stop⟩])

/-- A text has one derivation at most. -/
theorem IsOf.iff_eq {d d' : Derivation} {text : String} (h : d.IsOf text) :
    d'.IsOf text ↔ d' = d := by
  constructor
  · rintro ⟨stop', htokens'⟩
    obtain ⟨stop, htokens⟩ := h
    rw [htokens', Except.ok.injEq] at htokens
    exact tokens_inj (List.append_inj' htokens rfl).1
  · rintro rfl
    exact h

theorem IsOf.lexeme_ne_endOfInput {d : Derivation} {text : String} (h : d.IsOf text) :
    ∀ t ∈ d.tokens, t.lexeme ≠ .endOfInput := by
  obtain ⟨stop, htokens⟩ := h
  obtain ⟨front, stop', heq, hfront⟩ := exists_front_of_tokensFrom htokens
  rwa [(List.append_inj' heq rfl).1]

theorem IsOf.parse {d : Derivation} {text : String} (h : d.IsOf text) :
    Statement.parse text = .ok d.statements := by
  obtain ⟨stop, htokens⟩ := h
  obtain ⟨a, package, hrun⟩ := Reader.run_derivation d
  rw [Statement.parse_of_tokenize htokens, Reader.run_append, map_eq_ok]
  exact ⟨_, bind_eq_ok.2 ⟨_, hrun, Reader.run_endOfInput_eq_ok.2 ⟨rfl, a, rfl⟩⟩, rfl⟩

/-- A text that can be parsed has a derivation. -/
theorem exists_isOf_of_parse {text : String} {ss : List Statement}
    (h : Statement.parse text = .ok ss) : ∃ d : Derivation, d.IsOf text ∧ d.statements = ss := by
  cases htokens : tokenize text with
  | error e => simp [Statement.parse, htokens] at h
  | ok tokens =>
    obtain ⟨front, stop, rfl, hfront⟩ := exists_front_of_tokensFrom htokens
    have hread := h
    rw [Statement.parse_of_tokenize htokens, Reader.run_append, map_eq_ok] at hread
    obtain ⟨r, hr, -⟩ := hread
    obtain ⟨q, hq, hend⟩ := bind_eq_ok.1 hr
    obtain ⟨rfl, a, ha⟩ := Reader.run_endOfInput_eq_ok.1 hend
    obtain ⟨d, rfl⟩ := (Reader.accepts_start_iff hfront).1 ⟨_, a, hq, ha⟩
    have hd : d.IsOf text := ⟨stop, htokens⟩
    exact ⟨d, hd, Except.ok.inj (hd.parse.symm.trans h)⟩

/-- The same tokens elsewhere have a derivation, of the same statements elsewhere. -/
theorem exists_relocate (f : Span → Span) {d : Derivation}
    (h : ∀ t ∈ d.tokens, t.lexeme ≠ .endOfInput) :
    ∃ d' : Derivation, d'.tokens = d.tokens.map (Token.relocate f) ∧
      ∀ package, d'.statementsIn package =
        (d.statementsIn package).map (Statement.relocate f) := by
  have hmoved : ∀ package, ∃ a package',
      (⟨.between false, package, []⟩ : Reader).run (d.tokens.map (Token.relocate f)) =
        .ok ⟨.between a, package', (d.statementsIn package).map (Statement.relocate f)⟩ := by
    intro package
    obtain ⟨a, package', hrun⟩ := Reader.run_items package [] false d
    exact ⟨a, package',
      (Reader.run_relocate f ⟨.between false, package, []⟩ d.tokens).2 ⟨_, hrun, rfl⟩⟩
  have hts : ∀ t ∈ d.tokens.map (Token.relocate f), t.lexeme ≠ .endOfInput :=
    List.forall_mem_map.2 h
  -- One run gives the derivation; its statements are compared package by package.
  obtain ⟨a, package, hrun⟩ := hmoved none
  obtain ⟨d', hd'⟩ := (Reader.accepts_start_iff hts).1 ⟨_, a, hrun, rfl⟩
  refine ⟨d', hd', fun package => ?_⟩
  obtain ⟨a, package', hrun⟩ := hmoved package
  obtain ⟨a', package'', hrun'⟩ := Reader.run_items package [] false d'
  rw [hd', hrun] at hrun'
  exact (congrArg Reader.statements (Except.ok.inj hrun')).symm

end Derivation

/-! ## Packages -/

/-- The package that a line of a file gives. -/
def ItemTree.package? : ItemTree → Option String
  | .package _ name _ => some name.value
  | _ => none

/-- The statement where a package is in effect, if one is. -/
def Statement.inherit (package : Option String) (s : Statement) : Statement :=
  { s with package := package.or s.package }

theorem Statement.inherit_none : inherit none = id := rfl

namespace Derivation

/-- The package given last. -/
def lastPackage? (d : Derivation) : Option String := (d.filterMap ItemTree.package?).getLast?

/-- The lines in front of the first one that gives a package. -/
def leading (d : Derivation) : Derivation := d.takeWhile (·.package?.isNone)

theorem lastPackage?_cons (i : ItemTree) (d : Derivation) :
    lastPackage? (i :: d) = (lastPackage? d).or i.package? := by
  rw [lastPackage?, lastPackage?, List.filterMap_cons]
  cases i.package? with
  | none => exact (Option.or_none).symm
  | some name =>
    rw [List.getLast?_cons]
    cases (List.filterMap ItemTree.package? d).getLast? <;> rfl

theorem tokens_append (d e : Derivation) : tokens (d ++ e) = tokens d ++ tokens e :=
  List.flatMap_append

/-- In the second of two files, the package given last in the first one is in effect at first. -/
theorem statementsIn_append (package : Option String) (d e : Derivation) :
    statementsIn package (d ++ e) =
      statementsIn package d ++ statementsIn ((lastPackage? d).or package) e := by
  induction d generalizing package with
  | nil => rfl
  | cons i d ih =>
    rw [lastPackage?_cons]
    cases i with
    | package keyword name semicolon =>
      have hlast : ((lastPackage? d).or (some name.value)).or package =
          (lastPackage? d).or (some name.value) := by
        cases lastPackage? d <;> rfl
      simp only [List.cons_append, statementsIn, ItemTree.package?, ih, hlast]
    | block =>
      simp only [List.cons_append, statementsIn, ItemTree.package?, ih, Option.or_none]
    | declare =>
      simp only [List.cons_append, statementsIn, ItemTree.package?, ih, Option.or_none]

/-- A package in effect at first is the package of the leading statements, and of no others. -/
theorem exists_statementsIn_eq (d : Derivation) :
    ∃ rest, ∀ package,
      statementsIn package d =
        (statements (leading d)).map (Statement.inherit package) ++ rest := by
  induction d with
  | nil => exact ⟨[], fun _ => rfl⟩
  | cons i d ih =>
    obtain ⟨rest, hrest⟩ := ih
    cases i with
    | package keyword name semicolon =>
      exact ⟨statementsIn (some name.value) d, fun _ => rfl⟩
    | block =>
      refine ⟨rest, fun package => ?_⟩
      simp [statementsIn, leading, ItemTree.package?, statements, hrest, Statement.inherit]
    | declare =>
      refine ⟨rest, fun package => ?_⟩
      simp [statementsIn, leading, ItemTree.package?, statements, hrest, Statement.inherit]

end Derivation

/-! ## Joined texts -/

/-- The derivation of two texts with a line break between them is that of the first and that of the
second, which is behind the first. -/
theorem Derivation.IsOf.append_newline {d e : Derivation} {a b : String} (hd : d.IsOf a)
    (he : e.IsOf b) :
    ∃ e' : Derivation, (d ++ e' : Derivation).IsOf (a ++ "\n" ++ b) ∧ ∀ package,
      e'.statementsIn package =
        (e.statementsIn package).map (Statement.relocate (Span.shift (a.utf8ByteSize + 1))) := by
  obtain ⟨stop, ha⟩ := hd
  obtain ⟨e', htokens, hstatements⟩ :=
    e.exists_relocate (Span.shift (a.utf8ByteSize + 1)) he.lexeme_ne_endOfInput
  obtain ⟨stop', hb⟩ := he
  refine ⟨e', ⟨stop'.shift (a.utf8ByteSize + 1), ?_⟩, hstatements⟩
  have hshift : Tokenized (0 + byteLength a.toList + 1) b.toList
      (e'.tokens ++ [⟨.endOfInput, stop'.shift (a.utf8ByteSize + 1)⟩]) := by
    simpa [htokens, Token.relocate, byteLength_toList] using
      (tokenized_iff.2 hb).shift (a.utf8ByteSize + 1)
  have htext : (a ++ "\n" ++ b).toList = a.toList ++ '\n' :: b.toList := by simp
  have hjoined := (tokenized_iff.2 ha).append_newline hshift
  rw [List.dropLast_concat, ← List.append_assoc, ← tokens_append] at hjoined
  rw [tokenize, htext]
  exact tokenized_iff.1 hjoined

/-- **Parsing joins texts line by line.** If two texts can be parsed, so can the first with a line
break and the second behind it. Its statements are those of the first text and then those of the
second, moved by the bytes in front of it; only those in front of the first package that the second
text gives are in the package that the first text gave last, if it gave any. -/
theorem Statement.parse_append_newline {a b : String} {ss ts : List Statement}
    (ha : parse a = .ok ss) (hb : parse b = .ok ts) :
    ∃ d e : Derivation, (∀ d' : Derivation, d'.IsOf a ↔ d' = d) ∧
      (∀ e' : Derivation, e'.IsOf b ↔ e' = e) ∧
      ∃ rest, ts = e.leading.statements ++ rest ∧
        parse (a ++ "\n" ++ b) =
          .ok (ss ++ (e.leading.statements.map (inherit d.lastPackage?) ++ rest).map
            (relocate (Span.shift (a.utf8ByteSize + 1)))) := by
  obtain ⟨d, hd, rfl⟩ := Derivation.exists_isOf_of_parse ha
  obtain ⟨e, he, rfl⟩ := Derivation.exists_isOf_of_parse hb
  obtain ⟨e', hjoined, hmoved⟩ := hd.append_newline he
  obtain ⟨rest, hrest⟩ := e.exists_statementsIn_eq
  refine ⟨d, e, fun _ => hd.iff_eq, fun _ => he.iff_eq, rest, ?_, ?_⟩
  · rw [Derivation.statements, hrest none, inherit_none, List.map_id]
  · rw [hjoined.parse, Derivation.statements, Derivation.statementsIn_append, hmoved, hrest]
    simp [Derivation.statements]

/-- A text that ends in a comment. -/
def Statement.commentedText : String :=
  "package core; alter Domain Size \x7b \x7d // 5 \u2264 size"

/-- A text that gives its package late. -/
def Statement.lateText : String :=
  "declare Domain Age; package edge; create Domain Width \x7b note: \"wide\"; \x7d"

set_option maxRecDepth 4000 in
theorem Statement.parse_append_newline_commentedText :
    ∃ ss ts us, parse commentedText = .ok ss ∧ parse lateText = .ok ts ∧
      parse (commentedText ++ "\n" ++ lateText) = .ok us ∧
      us.map (fun s => (s.verb, s.package, s.name)) =
        [(.alter, some "core", ⟨"Size", ⟨27, 31⟩⟩),
          (.declare, some "core", ⟨"Age", ⟨65, 68⟩⟩),
          (.create, some "edge", ⟨"Width", ⟨98, 103⟩⟩)] := by
  have hcommented : commentedText.toList = _ := String.toList_ofList
  have hlate : lateText.toList = _ := String.toList_ofList
  have hbreak : "\n".toList = _ := String.toList_ofList
  have hfront : (parse commentedText).map (fun _ => ()) = .ok () := by
    rw [← String.ofList_toList (s := commentedText), parse_ofList, hcommented]
    decide +kernel
  have hback : (parse lateText).map (fun _ => ()) = .ok () := by
    rw [← String.ofList_toList (s := lateText), parse_ofList, hlate]
    decide +kernel
  obtain ⟨ss, hss, -⟩ := map_eq_ok.1 hfront
  obtain ⟨ts, hts, -⟩ := map_eq_ok.1 hback
  obtain ⟨d, e, -, -, rest, -, hjoin⟩ := parse_append_newline hss hts
  refine ⟨ss, ts, _, hss, hts, hjoin, ?_⟩
  have hread : (parse (commentedText ++ "\n" ++ lateText)).map
      (List.map fun s => (s.verb, s.package, s.name)) =
        .ok [(.alter, some "core", ⟨"Size", ⟨27, 31⟩⟩),
          (.declare, some "core", ⟨"Age", ⟨65, 68⟩⟩),
          (.create, some "edge", ⟨"Width", ⟨98, 103⟩⟩)] := by
    rw [← String.ofList_toList (s := commentedText ++ "\n" ++ lateText), parse_ofList,
      String.toList_append, String.toList_append, hcommented, hbreak, hlate]
    decide +kernel
  rw [hjoin] at hread
  exact Except.ok.inj hread

end Metamodel
