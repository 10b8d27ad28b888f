set_option autoImplicit false

/-! # Trimming white space

White space is the property White_Space of Unicode: besides the ASCII blanks it holds the next-line
and no-break spaces, the typographic spaces and the line and paragraph separators. -/

namespace Metamodel

/-- Whether a character has the Unicode property White_Space. -/
def isWhiteSpace (c : Char) : Bool :=
  let n := c.toNat
  (0x09 ≤ n && n ≤ 0x0d) || n == 0x20 || n == 0x85 || n == 0xa0 || n == 0x1680 ||
    (0x2000 ≤ n && n ≤ 0x200a) || n == 0x2028 || n == 0x2029 || n == 0x202f || n == 0x205f ||
    n == 0x3000

/-- The text without white space at its ends. -/
def trim (s : String) : String :=
  let front := s.toList.dropWhile isWhiteSpace
  String.ofList (front.reverse.dropWhile isWhiteSpace).reverse

end Metamodel
