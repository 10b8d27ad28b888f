import Metamodel.Text.Reading

set_option autoImplicit false

/-! # Derivations of model text

The grammar of model text, as the data type of its derivation trees:

    file      := ( "package" name ";" | statement )*
    statement := ("create" | "alter") Entity name "{" entry* "}" ";"?
               | "declare" Entity name ";"
    entry     := field ":" value ";"
               | head name "{" entry* "}" ";"?
    value     := quoted | integer | "true" | "false" | key | "[" ( key ("," key)* ","? )? "]"

There is one type for each symbol of the grammar and one constructor for each way to form it, so a
tree is a derivation and nothing else is one. A name is any word; just a value that is a key is no
word for a flag. Marks and the words that open a statement leave only their places in a tree, and
`tokens` puts all tokens back in order.

A tree is what a reader may make of its tokens, its `statements`. That no tokens have two
derivations is `Derivation.tokens_inj`: a semicolon that may be left out is never the beginning of
what follows, and for the rest the first tokens of two ways to go on differ. -/

namespace Metamodel

/-! ## Trees -/

/-- The token that writes a word. -/
def Located.token (w : Located String) : Token := ⟨.word w.value, w.span⟩

/-- The lexeme that writes a literal value. -/
def Value.lexeme : Value → Lexeme
  | .text s => .quoted s
  | .integer n => .integer n
  | .flag true => .word "true"
  | .flag false => .word "false"

/-- `key ("," key)* ","?` -/
structure KeyList where
  first : Located String
  /-- The further keys, each with the place of the comma in front of it. -/
  more : List (Span × Located String)
  trailing : Option Span

namespace KeyList

/-- The tokens of the keys and commas behind the first key. -/
def tailTokens (more : List (Span × Located String)) (trailing : Option Span) : List Token :=
  more.flatMap (fun k => [⟨.comma, k.1⟩, k.2.token]) ++ trailing.toList.map (⟨.comma, ·⟩)

def tokens (ks : KeyList) : List Token := ks.first.token :: tailTokens ks.more ks.trailing

def keys (ks : KeyList) : List (Located String) := ks.first :: ks.more.map Prod.snd

end KeyList

/-- What stands behind the colon of an entry. -/
inductive ValueTree
  | literal (value : Located Value)
  | key (target : Located String) (noFlag : target.value ≠ "true" ∧ target.value ≠ "false")
  | list (leftBracket : Span) (keys : Option KeyList) (rightBracket : Span)

namespace ValueTree

def tokens : ValueTree → List Token
  | .literal v => [⟨v.value.lexeme, v.span⟩]
  | .key target _ => [target.token]
  | .list leftBracket keys rightBracket =>
    ⟨.leftBracket, leftBracket⟩ :: (keys.elim [] KeyList.tokens ++ [⟨.rightBracket, rightBracket⟩])

/-- The entry that gives the value to a field. -/
def entry (field : Located String) : ValueTree → Entry
  | .literal v => .property field v
  | .key target _ => .links field [target]
  | .list _ keys _ => .links field (keys.elim [] KeyList.keys)

end ValueTree

/-- The token of a semicolon that may be left out. -/
def semicolonTokens (semicolon : Option Span) : List Token :=
  semicolon.toList.map (⟨.semicolon, ·⟩)

/-- One entry of a block. -/
inductive EntryTree
  | assign (field : Located String) (colon : Span) (value : ValueTree) (semicolon : Span)
  | child (head name : Located String) (leftBrace : Span) (body : List EntryTree)
    (rightBrace : Span) (semicolon : Option Span)

namespace EntryTree

mutual

def tokens : EntryTree → List Token
  | .assign field colon value semicolon =>
    field.token :: ⟨.colon, colon⟩ :: (value.tokens ++ [⟨.semicolon, semicolon⟩])
  | .child head name leftBrace body rightBrace semicolon =>
    head.token :: name.token :: ⟨.leftBrace, leftBrace⟩ ::
      (bodyTokens body ++ ⟨.rightBrace, rightBrace⟩ :: semicolonTokens semicolon)

/-- The tokens of some entries, one after the other. -/
def bodyTokens : List EntryTree → List Token
  | [] => []
  | e :: es => e.tokens ++ bodyTokens es

end

mutual

def entry : EntryTree → Entry
  | .assign field _ value _ => value.entry field
  | .child head name _ body _ _ => .child head name (bodyEntries body)

/-- What some entries stand for. -/
def bodyEntries : List EntryTree → List Entry
  | [] => []
  | e :: es => e.entry :: bodyEntries es

end

end EntryTree

/-- The word that opens a statement of a verb. -/
def Verb.keyword : Verb → String
  | .create => "create"
  | .alter => "alter"
  | .declare => "declare"

/-- One line of a file: a package or a statement. -/
inductive ItemTree
  | package (keyword : Span) (name : Located String) (semicolon : Span)
  | block (verb : Verb) (withBody : verb ≠ .declare) (keyword : Span)
    (entity name : Located String) (leftBrace : Span) (body : List EntryTree) (rightBrace : Span)
    (semicolon : Option Span)
  | declare (keyword : Span) (entity name : Located String) (semicolon : Span)

namespace ItemTree

def tokens : ItemTree → List Token
  | .package keyword name semicolon =>
    [⟨.word "package", keyword⟩, name.token, ⟨.semicolon, semicolon⟩]
  | .block verb _ keyword entity name leftBrace body rightBrace semicolon =>
    ⟨.word verb.keyword, keyword⟩ :: entity.token :: name.token :: ⟨.leftBrace, leftBrace⟩ ::
      (EntryTree.bodyTokens body ++ ⟨.rightBrace, rightBrace⟩ :: semicolonTokens semicolon)
  | .declare keyword entity name semicolon =>
    [⟨.word Verb.declare.keyword, keyword⟩, entity.token, name.token, ⟨.semicolon, semicolon⟩]

end ItemTree

/-- A derivation of a file. -/
abbrev Derivation := List ItemTree

namespace Derivation

def tokens (d : Derivation) : List Token := d.flatMap ItemTree.tokens

/-- The statements of a file in which a package is in effect at first: each gets the package that was
given last in front of it. -/
def statementsIn (package : Option String) : Derivation → List Statement
  | [] => []
  | .package _ name _ :: rest => statementsIn (some name.value) rest
  | .block verb _ _ entity name _ body _ _ :: rest =>
    ⟨verb, package, entity, name, EntryTree.bodyEntries body⟩ :: statementsIn package rest
  | .declare _ entity name _ :: rest =>
    ⟨.declare, package, entity, name, []⟩ :: statementsIn package rest

/-- The statements of a file. -/
def statements (d : Derivation) : List Statement := statementsIn none d

end Derivation

/-- Some lexemes are a sentence of the grammar if they have a derivation. -/
def Sentence (lexemes : List Lexeme) : Prop :=
  ∃ d : Derivation, d.tokens.map Token.lexeme = lexemes

/-! ## One derivation only

Trees are compared with what follows them: from the front, two trees with the same tokens agree, and
so do the tokens behind them. -/

theorem Located.token_inj {v w : Located String} (h : v.token = w.token) : v = w := by
  cases v
  cases w
  simpa [token] using h

theorem Value.lexeme_inj {v w : Value} (h : v.lexeme = w.lexeme) : v = w := by
  cases v with
  | flag b => cases w with
    | flag c => cases b <;> cases c <;> simp_all [lexeme]
    | _ => cases b <;> simp [lexeme] at h
  | _ => cases w with
    | flag c => cases c <;> simp [lexeme] at h
    | _ => simp_all [lexeme]

/-- A word that is no flag writes no literal. -/
theorem Value.lexeme_ne_word {v : Value} {w : String} (hw : w ≠ "true" ∧ w ≠ "false") :
    v.lexeme ≠ .word w := by
  cases v with
  | flag b => cases b <;> simp [lexeme, hw.1.symm, hw.2.symm]
  | _ => simp [lexeme]

theorem Value.lexeme_ne_leftBracket (v : Value) : v.lexeme ≠ .leftBracket := by
  cases v with
  | flag b => cases b <;> simp [lexeme]
  | _ => simp [lexeme]

namespace KeyList

variable {rest rest' : List Token} {close close' : Span}

theorem tailTokens_append_inj {more more' : List (Span × Located String)}
    {trailing trailing' : Option Span} (h : tailTokens more trailing ++ ⟨.rightBracket, close⟩ :: rest =
      tailTokens more' trailing' ++ ⟨.rightBracket, close'⟩ :: rest') :
    more = more' ∧ trailing = trailing' ∧ close = close' ∧ rest = rest' := by
  induction more generalizing more' with
  | nil =>
    cases more' with
    | nil => cases trailing <;> cases trailing' <;> simp_all [tailTokens]
    | cons k more' => cases trailing <;> simp_all [tailTokens, Located.token]
  | cons k more ih =>
    cases more' with
    | nil => cases trailing' <;> simp_all [tailTokens, Located.token]
    | cons k' more' =>
      obtain ⟨comma, key⟩ := k
      obtain ⟨comma', key'⟩ := k'
      simp only [tailTokens, List.flatMap_cons, List.cons_append, List.nil_append,
        List.cons.injEq, Token.mk.injEq, true_and] at h
      obtain ⟨rfl, hkey, h⟩ := h
      obtain ⟨rfl, hrest⟩ := ih h
      exact ⟨by rw [Located.token_inj hkey], hrest⟩

theorem tokens_append_inj {ks ks' : Option KeyList}
    (h : ks.elim [] tokens ++ ⟨.rightBracket, close⟩ :: rest =
      ks'.elim [] tokens ++ ⟨.rightBracket, close'⟩ :: rest') :
    ks = ks' ∧ close = close' ∧ rest = rest' := by
  cases ks with
  | none =>
    cases ks' with
    | none => simpa using h
    | some ks' => simp [tokens, Located.token] at h
  | some ks =>
    cases ks' with
    | none => simp [tokens, Located.token] at h
    | some ks' =>
      obtain ⟨first, more, trailing⟩ := ks
      obtain ⟨first', more', trailing'⟩ := ks'
      simp only [Option.elim_some, tokens, List.cons_append, List.cons.injEq] at h
      obtain ⟨hfirst, h⟩ := h
      obtain ⟨rfl, rfl, hrest⟩ := tailTokens_append_inj h
      exact ⟨by rw [Located.token_inj hfirst], hrest⟩

end KeyList

theorem ValueTree.tokens_append_inj {v v' : ValueTree} {rest rest' : List Token}
    (h : v.tokens ++ rest = v'.tokens ++ rest') : v = v' ∧ rest = rest' := by
  -- The first token tells a literal, a key and a list apart.
  cases v with
  | literal x =>
    cases v' with
    | literal y =>
      simp only [tokens, List.cons_append, List.nil_append, List.cons.injEq, Token.mk.injEq] at h
      obtain ⟨⟨hvalue, hspan⟩, hrest⟩ := h
      have hxy : x = y := by
        cases x
        cases y
        simpa using ⟨Value.lexeme_inj hvalue, hspan⟩
      exact ⟨by rw [hxy], hrest⟩
    | key target hw =>
      simp [tokens, Located.token, Value.lexeme_ne_word hw] at h
    | list => simp [tokens, Value.lexeme_ne_leftBracket] at h
  | key target hw =>
    cases v' with
    | literal y => simp [tokens, Located.token, (Value.lexeme_ne_word hw).symm] at h
    | key target' hw' =>
      simp only [tokens, List.cons_append, List.nil_append, List.cons.injEq] at h
      obtain rfl := Located.token_inj h.1
      exact ⟨rfl, h.2⟩
    | list => simp [tokens, Located.token] at h
  | list leftBracket keys rightBracket =>
    cases v' with
    | literal y => simp [tokens, (Value.lexeme_ne_leftBracket y.value).symm] at h
    | key target' hw' => simp [tokens, Located.token] at h
    | list leftBracket' keys' rightBracket' =>
      simp only [tokens, List.cons_append, List.append_assoc, List.cons.injEq, Token.mk.injEq,
        true_and, List.nil_append] at h
      obtain ⟨rfl, h⟩ := h
      obtain ⟨rfl, rfl, hrest⟩ := KeyList.tokens_append_inj h
      exact ⟨rfl, hrest⟩

/-- The tokens do not begin with a semicolon. -/
def NoSemicolon (ts : List Token) : Prop := ∀ t ∈ ts.head?, t.lexeme ≠ .semicolon

theorem semicolonTokens_append_inj {semicolon semicolon' : Option Span} {rest rest' : List Token}
    (hrest : NoSemicolon rest) (hrest' : NoSemicolon rest')
    (h : semicolonTokens semicolon ++ rest = semicolonTokens semicolon' ++ rest') :
    semicolon = semicolon' ∧ rest = rest' := by
  cases semicolon with
  | none =>
    cases semicolon' with
    | none => exact ⟨rfl, h⟩
    | some span =>
      -- Otherwise what follows the tree without a semicolon would begin with one.
      simp only [semicolonTokens, Option.toList_none, List.map_nil, List.nil_append] at h
      exact absurd rfl (hrest ⟨.semicolon, span⟩ (by simp [h]))
  | some span =>
    cases semicolon' with
    | none =>
      simp only [semicolonTokens, Option.toList_none, List.map_nil, List.nil_append] at h
      exact absurd rfl (hrest' ⟨.semicolon, span⟩ (by simp [← h]))
    | some span' => simpa [semicolonTokens] using h

namespace EntryTree

theorem noSemicolon_bodyTokens (es : List EntryTree) (close : Span) (rest : List Token) :
    NoSemicolon (bodyTokens es ++ ⟨.rightBrace, close⟩ :: rest) := by
  cases es with
  | nil => simp [bodyTokens, NoSemicolon]
  | cons e es => cases e <;> simp [bodyTokens, tokens, NoSemicolon, Located.token]

mutual

theorem tokens_append_inj {rest rest' : List Token} (hrest : NoSemicolon rest)
    (hrest' : NoSemicolon rest') :
    ∀ e e' : EntryTree, e.tokens ++ rest = e'.tokens ++ rest' → e = e' ∧ rest = rest'
  | .assign field colon value semicolon, .assign field' colon' value' semicolon', h => by
    simp only [tokens, List.cons_append, List.append_assoc, List.cons.injEq, Token.mk.injEq,
      true_and, List.nil_append] at h
    obtain ⟨hfield, rfl, hvalue⟩ := h
    obtain rfl := Located.token_inj hfield
    obtain ⟨rfl, hend⟩ := ValueTree.tokens_append_inj hvalue
    simp only [List.cons.injEq, Token.mk.injEq, true_and] at hend
    obtain ⟨rfl, hrest⟩ := hend
    exact ⟨rfl, hrest⟩
  | .assign .., .child .., h => by simp [tokens, Located.token] at h
  | .child .., .assign .., h => by simp [tokens, Located.token] at h
  | .child head name leftBrace body close semicolon,
      .child head' name' leftBrace' body' close' semicolon', h => by
    simp only [tokens, List.cons_append, List.append_assoc, List.cons.injEq, Token.mk.injEq,
      true_and] at h
    obtain ⟨hhead, hname, rfl, hbody⟩ := h
    obtain rfl := Located.token_inj hhead
    obtain rfl := Located.token_inj hname
    obtain ⟨rfl, rfl, hend⟩ := bodyTokens_append_inj body body' hbody
    obtain ⟨rfl, hrest⟩ := semicolonTokens_append_inj hrest hrest' hend
    exact ⟨rfl, hrest⟩

theorem bodyTokens_append_inj {close close' : Span} {rest rest' : List Token} :
    ∀ es es' : List EntryTree,
      bodyTokens es ++ ⟨.rightBrace, close⟩ :: rest =
        bodyTokens es' ++ ⟨.rightBrace, close'⟩ :: rest' →
      es = es' ∧ close = close' ∧ rest = rest'
  | [], [], h => by simpa [bodyTokens] using h
  | [], e' :: es', h => by cases e' <;> simp [bodyTokens, tokens, Located.token] at h
  | e :: es, [], h => by cases e <;> simp [bodyTokens, tokens, Located.token] at h
  | e :: es, e' :: es', h => by
    simp only [bodyTokens, List.append_assoc] at h
    obtain ⟨rfl, hmore⟩ := tokens_append_inj (noSemicolon_bodyTokens es close rest)
      (noSemicolon_bodyTokens es' close' rest') e e' h
    obtain ⟨rfl, hend⟩ := bodyTokens_append_inj es es' hmore
    exact ⟨rfl, hend⟩

end

end EntryTree

/-! ## Files -/

theorem Verb.keyword_inj {v w : Verb} (h : v.keyword = w.keyword) : v = w := by
  cases v <;> cases w <;> simp_all [keyword]

theorem Verb.keyword_ne_package (v : Verb) : v.keyword ≠ "package" := by
  cases v <;> decide

theorem noSemicolon_tokens (d : Derivation) : NoSemicolon d.tokens := by
  cases d with
  | nil => simp [Derivation.tokens, NoSemicolon]
  | cons i d => cases i <;> simp [Derivation.tokens, ItemTree.tokens, NoSemicolon]

theorem ItemTree.tokens_append_inj {i i' : ItemTree} {rest rest' : List Token}
    (hrest : NoSemicolon rest) (hrest' : NoSemicolon rest') (h : i.tokens ++ rest = i'.tokens ++ rest') :
    i = i' ∧ rest = rest' := by
  -- The first word tells a package, a verb with a body and a declaration apart.
  cases i with
  | package keyword name semicolon =>
    cases i' with
    | package keyword' name' semicolon' =>
      simp only [tokens, List.cons_append, List.cons.injEq, Token.mk.injEq, true_and,
        List.nil_append] at h
      obtain ⟨rfl, hname, rfl, hrest⟩ := h
      obtain rfl := Located.token_inj hname
      exact ⟨rfl, hrest⟩
    | block verb => simp [tokens, verb.keyword_ne_package.symm] at h
    | declare => simp [tokens, (Verb.keyword_ne_package .declare).symm] at h
  | block verb hverb keyword entity name leftBrace body close semicolon =>
    cases i' with
    | package => simp [tokens, verb.keyword_ne_package] at h
    | block verb' hverb' keyword' entity' name' leftBrace' body' close' semicolon' =>
      simp only [tokens, List.cons_append, List.append_assoc, List.cons.injEq, Token.mk.injEq,
        Lexeme.word.injEq, true_and] at h
      obtain ⟨⟨hkeyword, rfl⟩, hentity, hname, rfl, hbody⟩ := h
      obtain rfl := Verb.keyword_inj hkeyword
      obtain rfl := Located.token_inj hentity
      obtain rfl := Located.token_inj hname
      obtain ⟨rfl, rfl, hend⟩ := EntryTree.bodyTokens_append_inj body body' hbody
      obtain ⟨rfl, hrest⟩ := semicolonTokens_append_inj hrest hrest' hend
      exact ⟨rfl, hrest⟩
    | declare =>
      simp only [tokens, List.cons_append, List.cons.injEq, Token.mk.injEq, Lexeme.word.injEq] at h
      exact absurd (Verb.keyword_inj h.1.1) hverb
  | declare keyword entity name semicolon =>
    cases i' with
    | package => simp [tokens, Verb.keyword_ne_package .declare] at h
    | block verb' hverb' =>
      simp only [tokens, List.cons_append, List.cons.injEq, Token.mk.injEq, Lexeme.word.injEq] at h
      exact absurd (Verb.keyword_inj h.1.1).symm hverb'
    | declare keyword' entity' name' semicolon' =>
      simp only [tokens, List.cons_append, List.cons.injEq, Token.mk.injEq, true_and,
        List.nil_append] at h
      obtain ⟨rfl, hentity, hname, rfl, hrest⟩ := h
      obtain rfl := Located.token_inj hentity
      obtain rfl := Located.token_inj hname
      exact ⟨rfl, hrest⟩

/-- **The grammar is unambiguous.** No tokens have two derivations. -/
theorem Derivation.tokens_inj {d d' : Derivation} (h : d.tokens = d'.tokens) : d = d' := by
  induction d generalizing d' with
  | nil =>
    cases d' with
    | nil => rfl
    | cons i' d' => cases i' <;> simp [Derivation.tokens, ItemTree.tokens] at h
  | cons i d ih =>
    cases d' with
    | nil => cases i <;> simp [Derivation.tokens, ItemTree.tokens] at h
    | cons i' d' =>
      obtain ⟨rfl, hrest⟩ :=
        ItemTree.tokens_append_inj (noSemicolon_tokens d) (noSemicolon_tokens d') h
      rw [ih hrest]

end Metamodel
