set_option autoImplicit false

/-! # Paths

A path names a file or directory by the components on the way to it, separated by slashes. Paths are
texts and stay as they are written: joining two paths and taking the parent of one never resolves
`.` or `..` or a repeated slash. -/

namespace Metamodel

namespace Path

/-- The parts of a text between slashes. There is one more part than there are slashes. -/
def splitSlashes : List Char → List (List Char)
  | [] => [[]]
  | '/' :: cs => [] :: splitSlashes cs
  | c :: cs => (splitSlashes cs).modifyHead (c :: ·)

/-- The components of a path. A slash at an end has an empty component behind or in front of it. -/
def components (path : String) : List String := (splitSlashes path.toList).map String.ofList

/-- Whether a path starts at the root. -/
def isAbsolute (path : String) : Bool := path.toList.head? == some '/'

/-- The path that leads from `base` along `path`; an absolute `path` does not need a base. -/
def join (base path : String) : String :=
  if isAbsolute path then path
  else if base = "" ∨ base.toList.getLast? = some '/' then base ++ path
  else base ++ "/" ++ path

/-! ## Limits -/

/-- Whether a file system looks at a path at all. The character with code 0 would end it early, and a
path takes at most 4095 bytes. -/
def isAccepted (path : String) : Bool :=
  !path.toList.contains '\x00' && decide (path.utf8ByteSize ≤ 4095)

/-- Whether a component is short enough for the name of a file or directory, at most 255 bytes. -/
def isNameLength (component : String) : Bool := decide (component.utf8ByteSize ≤ 255)

/-! ## Parents -/

/-- Whether a component, behind the first, leads nowhere. -/
def isIdle (component : List Char) : Bool := component.isEmpty || component == ['.']

/-- The components of a list up to the last one that leads somewhere. -/
def dropIdle (components : List (List Char)) : List (List Char) :=
  (components.reverse.dropWhile isIdle).reverse

/-- The start of a path, a slash or a dot that stands for the directory one is in, and the rest. -/
def splitStart : List Char → List Char × List Char
  | '/' :: cs => (['/'], cs)
  | ['.'] => (['.'], [])
  | '.' :: '/' :: cs => (['.'], '/' :: cs)
  | cs => ([], cs)

/-- The path without its last component. The root and the empty path have no parent. -/
def parent? (path : String) : Option String :=
  let (start, rest) := splitStart path.toList
  match dropIdle (splitSlashes rest) with
  | [] => if start = ['.'] then some "" else none
  | taken =>
    some (String.ofList (start ++ List.intercalate ['/'] (dropIdle taken.dropLast)))

end Path

end Metamodel
