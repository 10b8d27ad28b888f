import Metamodel.Text.Statement
import Metamodel.Text.Token

set_option autoImplicit false

/-! # Reading statements

The form of model text is

    file      := ( "package" name ";" | statement )*
    statement := ("create" | "alter") Entity name "{" entry* "}" ";"?
               | "declare" Entity name ";"
    entry     := field ":" value ";"
               | head name "{" entry* "}" ";"?
    value     := quoted | integer | "true" | "false" | key | "[" ( key ("," key)* ","? )? "]"

One token always decides how to go on, so a text is read by a machine that takes one token at a
time (`Reader.step`). Its state says what may come next (`Place`), and holds the blocks that are
open (`Block`) and the statements that are complete. A token that cannot come next is an error, and
the place says what was expected instead (`Place.expected`). -/

namespace Metamodel

/-! ## Expectations and errors -/

/-- What a text can be expected to go on with. -/
inductive Expectation
  | statement
  | packageName
  | entityName
  | definitionName
  | fieldName
  | value
  | target
  | mark (lexeme : Lexeme)
deriving DecidableEq, Repr

/-- How an expectation is called in messages. -/
def Expectation.describe : Expectation → String
  | .statement => "`package`, `create`, `alter` or `declare`"
  | .packageName => "a package name"
  | .entityName => "an entity name"
  | .definitionName => "a definition name"
  | .fieldName => "a field name or `\x7d`"
  | .value => "a value"
  | .target => "a definition name or `]`"
  | .mark lexeme => lexeme.describe

/-- Why a text has no statements. -/
inductive SyntaxError
  | lexical (error : LexicalError)
  | unexpected (expected : Expectation) (found : Token)
deriving DecidableEq, Repr

namespace SyntaxError

/-- The message for an error. -/
def message : SyntaxError → String
  | .lexical e => e.fault.message
  | .unexpected expected found =>
    "expected " ++ expected.describe ++ ", found " ++ found.lexeme.describe

/-- The place of an error. -/
def span : SyntaxError → Span
  | .lexical e => e.span
  | .unexpected _ found => found.span

end SyntaxError

/-! ## The state of a reader -/

/-- The blocks that are open, the innermost first, each with the entries read so far. -/
inductive Block
  /-- The body of a statement. -/
  | statement (verb : Verb) (entity name : Located String) (entries : List Entry)
  /-- The body of a child entry of an outer block. -/
  | child (outer : Block) (head name : Located String) (entries : List Entry)
deriving Repr

/-- The block with one more entry. -/
def Block.add (entry : Entry) : Block → Block
  | .statement verb entity name entries => .statement verb entity name (entries ++ [entry])
  | .child outer head name entries => .child outer head name (entries ++ [entry])

/-- Where in a text a reader stands. -/
inductive Place
  /-- Between statements; a semicolon may stand here if a block was closed just before. -/
  | between (afterBlock : Bool)
  /-- Behind `package`. -/
  | package
  /-- Behind the name of a package. -/
  | packageEnd (name : String)
  /-- Behind a verb. -/
  | entity (verb : Verb)
  /-- Behind a verb and an entity. -/
  | name (verb : Verb) (entity : Located String)
  /-- Behind a declared name. -/
  | declareEnd (entity name : Located String)
  /-- In front of the opening brace of a block. -/
  | blockStart (block : Block)
  /-- Between entries; a semicolon may stand here if a block was closed just before. -/
  | entries (block : Block) (afterBlock : Bool)
  /-- Behind the first word of an entry. -/
  | head (block : Block) (head : Located String)
  /-- Behind the colon of an entry. -/
  | value (block : Block) (field : Located String)
  /-- Behind the value of an entry. -/
  | entryEnd (block : Block) (entry : Entry)
  /-- In a list of links, in front of a target. -/
  | target (block : Block) (field : Located String) (targets : List (Located String))
  /-- In a list of links, behind a target. -/
  | targetEnd (block : Block) (field : Located String) (targets : List (Located String))
deriving Repr

/-- What a text can be expected to go on with at a place. -/
def Place.expected : Place → Expectation
  | .between _ => .statement
  | .package => .packageName
  | .packageEnd _ => .mark .semicolon
  | .entity _ => .entityName
  | .name _ _ => .definitionName
  | .declareEnd _ _ => .mark .semicolon
  | .blockStart _ => .mark .leftBrace
  | .entries _ _ => .fieldName
  | .head _ _ => .mark .colon
  | .value _ _ => .value
  | .entryEnd _ _ => .mark .semicolon
  | .target _ _ _ => .target
  | .targetEnd _ _ _ => .mark .rightBracket

/-- A reader: where it stands, the package in effect and the statements it has read. -/
structure Reader where
  place : Place
  package : Option String
  statements : List Statement
deriving Repr

namespace Reader

/-- A reader in front of a text. -/
def start : Reader := ⟨.between false, none, []⟩

/-- The reader moved to another place. -/
def goto (r : Reader) (place : Place) : Reader := { r with place }

/-- The reader with one more statement, behind it. -/
def emit (r : Reader) (verb : Verb) (entity name : Located String) (body : List Entry)
    (afterBlock : Bool) : Reader :=
  ⟨.between afterBlock, r.package, r.statements ++ [⟨verb, r.package, entity, name, body⟩]⟩

/-- The reader behind the closing brace of a block. -/
def close (r : Reader) : Block → Reader
  | .statement verb entity name entries => r.emit verb entity name entries true
  | .child outer head name entries => r.goto (.entries (outer.add (.child head name entries)) true)

/-- The reader behind a word that opens a statement. -/
def openStatement (r : Reader) (word : String) : Option Reader :=
  if word = "package" then some (r.goto .package)
  else if word = "create" then some (r.goto (.entity .create))
  else if word = "alter" then some (r.goto (.entity .alter))
  else if word = "declare" then some (r.goto (.entity .declare))
  else none

/-- The reader behind the first token of a value. A word other than `true` and `false` is a link. -/
def openValue (r : Reader) (block : Block) (field : Located String) (t : Token) : Option Reader :=
  let literal (v : Value) := some (r.goto (.entryEnd block (.property field ⟨v, t.span⟩)))
  match t.lexeme with
  | .quoted text => literal (.text text)
  | .integer n => literal (.integer n)
  | .word w =>
    if w = "true" then literal (.flag true)
    else if w = "false" then literal (.flag false)
    else some (r.goto (.entryEnd block (.links field [⟨w, t.span⟩])))
  | .leftBracket => some (r.goto (.target block field []))
  | _ => none

/-- The reader behind one more token, if the token can stand where the reader does. -/
def step? (r : Reader) (t : Token) : Option Reader :=
  match r.place, t.lexeme with
  | .between _, .word w => r.openStatement w
  | .between true, .semicolon => some (r.goto (.between false))
  | .between _, .endOfInput => some r
  | .package, .word w => some (r.goto (.packageEnd w))
  | .packageEnd name, .semicolon => some { r with place := .between false, package := some name }
  | .entity verb, .word w => some (r.goto (.name verb ⟨w, t.span⟩))
  | .name .declare entity, .word w => some (r.goto (.declareEnd entity ⟨w, t.span⟩))
  | .name verb entity, .word w =>
    some (r.goto (.blockStart (.statement verb entity ⟨w, t.span⟩ [])))
  | .declareEnd entity name, .semicolon => some (r.emit .declare entity name [] false)
  | .blockStart block, .leftBrace => some (r.goto (.entries block false))
  | .entries block _, .word w => some (r.goto (.head block ⟨w, t.span⟩))
  | .entries block true, .semicolon => some (r.goto (.entries block false))
  | .entries block _, .rightBrace => some (r.close block)
  | .head block head, .word w => some (r.goto (.blockStart (.child block head ⟨w, t.span⟩ [])))
  | .head block head, .colon => some (r.goto (.value block head))
  | .value block field, _ => r.openValue block field t
  | .entryEnd block entry, .semicolon => some (r.goto (.entries (block.add entry) false))
  | .target block field targets, .word w =>
    some (r.goto (.targetEnd block field (targets ++ [⟨w, t.span⟩])))
  | .target block field targets, .rightBracket =>
    some (r.goto (.entryEnd block (.links field targets)))
  | .targetEnd block field targets, .comma => some (r.goto (.target block field targets))
  | .targetEnd block field targets, .rightBracket =>
    some (r.goto (.entryEnd block (.links field targets)))
  | _, _ => none

/-- The reader behind one more token, or the error that the token is not expected. -/
def step (r : Reader) (t : Token) : Except SyntaxError Reader :=
  match r.step? t with
  | some r => .ok r
  | none => .error (.unexpected r.place.expected t)

/-- The reader behind some tokens. -/
def run (r : Reader) (ts : List Token) : Except SyntaxError Reader := ts.foldlM step r

@[simp] theorem run_nil (r : Reader) : r.run [] = .ok r := rfl

theorem run_cons (r : Reader) (t : Token) (ts : List Token) :
    r.run (t :: ts) = (r.step t).bind (run · ts) := rfl

/-- Reading some tokens and then others is reading them all. -/
theorem run_append (r : Reader) (ts us : List Token) :
    r.run (ts ++ us) = (r.run ts).bind (run · us) := by
  induction ts generalizing r with
  | nil => rfl
  | cons t ts ih =>
    rw [List.cons_append, run_cons, run_cons]
    cases r.step t with
    | error e => rfl
    | ok r' => exact ih r'

end Reader

/-- The statements of a model text. Lexical errors anywhere in the text come first. -/
def Statement.parse (text : String) : Except SyntaxError (List Statement) :=
  match tokenize text with
  | .error e => .error (.lexical e)
  | .ok tokens => (Reader.start.run tokens).map Reader.statements

end Metamodel
