set_option autoImplicit false

/-! # Places in a text

A place in a text is a half-open range of byte offsets into its UTF-8 form. Texts are read as lists
of characters, so offsets are sums of `Char.utf8Size` (`byteLength`). -/

namespace Metamodel

/-- The bytes from `start` up to but not including `stop`. -/
structure Span where
  start : Nat
  stop : Nat
deriving DecidableEq, Repr

namespace Span

/-- The number of bytes in a span. -/
def length (s : Span) : Nat := s.stop - s.start

/-- Whether a span holds no byte. -/
def isEmpty (s : Span) : Bool := s.start == s.stop

/-- The span moved `n` bytes further into the text. -/
def shift (n : Nat) (s : Span) : Span := ⟨n + s.start, n + s.stop⟩

end Span

/-- Something read from a text, with the place it was read from. -/
structure Located (α : Type) where
  value : α
  span : Span
deriving DecidableEq, Repr

/-- The number of bytes of some characters in UTF-8. -/
def byteLength : List Char → Nat
  | [] => 0
  | c :: cs => c.utf8Size + byteLength cs

@[simp] theorem byteLength_nil : byteLength [] = 0 := rfl

@[simp] theorem byteLength_cons (c : Char) (cs : List Char) :
    byteLength (c :: cs) = c.utf8Size + byteLength cs := rfl

@[simp] theorem byteLength_append (cs ds : List Char) :
    byteLength (cs ++ ds) = byteLength cs + byteLength ds := by
  induction cs with
  | nil => simp
  | cons c cs ih => simp [ih, Nat.add_assoc]

end Metamodel
