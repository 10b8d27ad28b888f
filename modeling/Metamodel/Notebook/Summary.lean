import Metamodel.Notebook.Basic

set_option autoImplicit false

/-! # Summaries of notebooks

A summary counts the sketches of a notebook, kind by kind and in total. Its text has a line for each
kind, also for kinds without a sketch, and a last line for the total. -/

namespace Metamodel

namespace Notebook

/-- The number of sketches of a kind. -/
def count (n : Notebook) (kind : SketchKind) : Nat := (n.ofKind kind).length

/-- The number of sketches of every kind. -/
def counts (n : Notebook) : List (SketchKind × Nat) := SketchKind.all.map fun k => (k, n.count k)

/-- A number as it stands in a summary: in decimal, with blanks in front up to five characters. -/
def column (n : Nat) : String :=
  let digits := (Nat.repr n).toList
  String.ofList (List.replicate (5 - digits.length) ' ' ++ digits)

/-- The text of a summary. Only the word of the last line is filled up, to 18 characters. -/
def summary (n : Notebook) : String :=
  let line (word : String) (count : Nat) := word ++ " " ++ column count
  String.intercalate "\n" <|
    (n.counts.map fun c => line c.1.name c.2) ++ [line "total             " n.size]

/-- The kinds divide the sketches of a notebook: their counts add up to its size. -/
theorem sum_counts (n : Notebook) :
    n.counts.foldr (fun c total => c.2 + total) 0 = n.size := by
  simp only [counts, SketchKind.all, List.map_cons, List.map_nil, List.foldr_cons, List.foldr_nil,
    count, ofKind, size]
  induction n.sketches with
  | nil => rfl
  | cons s rest ih =>
    cases h : s.kind <;> simp [h] <;> omega

end Notebook

end Metamodel
