import Metamodel.Toml.Text

set_option autoImplicit false

/-! # Numbers, dates and times of TOML

The forms of TOML's integers, floats, dates and times, read for their form alone: each reader gives
the rest behind the value, or nothing if the document is at fault there. Integers have to fit 64
bits, a positive float has to be finite, and dates have to exist. -/

namespace Metamodel

namespace Toml

/-! ## Digits -/

/-- The digits behind the first of a number; underscores may stand between digits. -/
def moreDigits? (isDigit : Char → Bool) : List Char → Read (List Char)
  | [] => some ([], [])
  | '_' :: cs =>
    match cs with
    | c :: cs => if isDigit c then (moreDigits? isDigit cs).map (push c) else none
    | [] => none
  | c :: cs => if isDigit c then (moreDigits? isDigit cs).map (push c) else some ([], c :: cs)

/-- The digits of a number, one or more. -/
def digits? (isDigit : Char → Bool) : List Char → Read (List Char)
  | c :: cs => if isDigit c then (moreDigits? isDigit cs).map (push c) else none
  | [] => none

/-- The digits of a decimal number; zero at the front stands alone. -/
def decimalDigits? : List Char → Read (List Char)
  | '0' :: cs => some (['0'], cs)
  | cs => digits? Char.isDigit cs

/-- The number that digits write in a base. -/
def digitsValue (base : Nat) (digits : List Char) : Nat :=
  digits.foldl (fun n c => base * n + (hexDigit? c).getD 0) 0

/-- Whether the number is negative, and its digits. -/
def sign : List Char → Bool × List Char
  | '-' :: cs => (true, cs)
  | '+' :: cs => (false, cs)
  | cs => (false, cs)

/-! ## Integers -/

/-- The greatest number that an integer can be. -/
def maxInteger : Nat := 0x7fffffffffffffff

/-- An integer in the base that a letter stands for; `cs` are the characters behind the letter. -/
def prefixedInteger? (letter : Char) (cs : List Char) : Option (List Char) := do
  let base ← match letter with
    | 'x' => some 16
    | 'o' => some 8
    | 'b' => some 2
    | _ => none
  let (digits, rest) ← digits? (fun c => (hexDigit? c).any (· < base)) cs
  if digitsValue base digits ≤ maxInteger then some rest else none

/-! ## Floats -/

/-- Whether `n * 10 ^ e` is less than the numbers that binary floats of 64 bits round to infinity.
Numbers far from the bound are told without their power of ten. -/
def isFinite (n : Nat) (e : Int) : Bool :=
  let bound := Nat.pow 2 1024 - Nat.pow 2 970
  if n = 0 ∨ n.log2 < (-e).toNat then true
  else if e ≤ 0 then n < bound * Nat.pow 10 (-e).toNat
  else e ≤ 400 && n * Nat.pow 10 e.toNat < bound

/-- The exponent at the front, if there is one. -/
def exponent? : List Char → Read (Option Int)
  | c :: cs =>
    if c = 'e' ∨ c = 'E' then
      let (negative, cs) := sign cs
      (digits? Char.isDigit cs).map fun (digits, rest) =>
        let n : Int := digitsValue 10 digits
        (some (if negative then -n else n), rest)
    else some (none, c :: cs)
  | [] => some (none, [])

/-- The fraction at the front, if there is one. -/
def fraction? : List Char → Read (Option (List Char))
  | '.' :: cs => (digits? Char.isDigit cs).map fun (digits, rest) => (some digits, rest)
  | cs => some (none, cs)

/-- A decimal number: an integer, or a float if it has a fraction or an exponent. -/
def decimal? (negative : Bool) (cs : List Char) : Option (List Char) := do
  let (whole, cs) ← decimalDigits? cs
  let (fraction, cs) ← fraction? cs
  let (exponent, rest) ← exponent? cs
  let inRange :=
    match fraction, exponent with
    | none, none =>
      let n := digitsValue 10 whole
      n ≤ maxInteger || (negative && n == maxInteger + 1)
    | _, _ =>
      let places := fraction.getD []
      negative || isFinite (digitsValue 10 (whole ++ places)) (exponent.getD 0 - places.length)
  if inRange then some rest else none

/-- A number. -/
def number? (cs : List Char) : Option (List Char) :=
  let (negative, unsigned) := sign cs
  match cs, unsigned with
  | _, 'i' :: 'n' :: 'f' :: rest => some rest
  | _, 'n' :: 'a' :: 'n' :: rest => some rest
  | '0' :: letter :: rest, _ =>
    if letter = 'x' ∨ letter = 'o' ∨ letter = 'b' then prefixedInteger? letter rest
    else decimal? negative unsigned
  | _, _ => decimal? negative unsigned

/-! ## Dates and times -/

/-- A number of exactly `n` digits between two bounds. -/
def fixedDigits? (n low high : Nat) (cs : List Char) : Read Nat :=
  let digits := cs.take n
  let value := digitsValue 10 digits
  if digits.length = n ∧ digits.all Char.isDigit ∧ low ≤ value ∧ value ≤ high then
    some (value, cs.drop n)
  else none

/-- The characters behind a mark. -/
def mark? (c : Char) : List Char → Option (List Char)
  | d :: cs => if d = c then some cs else none
  | [] => none

/-- The number of days of a month. -/
def daysIn (year month : Nat) : Nat :=
  if month = 2 then if year % 4 = 0 ∧ (year % 100 ≠ 0 ∨ year % 400 = 0) then 29 else 28
  else if month = 4 ∨ month = 6 ∨ month = 9 ∨ month = 11 then 30
  else 31

/-- A day: year, month and day of the month. -/
def date? (cs : List Char) : Option (List Char) := do
  let (year, cs) ← fixedDigits? 4 0 9999 cs
  let (month, cs) ← fixedDigits? 2 1 12 (← mark? '-' cs)
  let (_, rest) ← fixedDigits? 2 1 (daysIn year month) (← mark? '-' cs)
  return rest

/-- Hours and minutes. -/
def clock? (cs : List Char) : Option (List Char) := do
  let (_, cs) ← fixedDigits? 2 0 23 cs
  let (_, rest) ← fixedDigits? 2 0 59 (← mark? ':' cs)
  return rest

/-- A time of day: hours, minutes, seconds, which may be a leap second, and parts of a second. -/
def time? (cs : List Char) : Option (List Char) := do
  let cs ← clock? cs
  let (_, rest) ← fixedDigits? 2 0 60 (← mark? ':' cs)
  match rest with
  | '.' :: cs =>
    if (cs.head?.any Char.isDigit) then some (cs.dropWhile Char.isDigit) else none
  | rest => some rest

/-- The offset from universal time at the front, if there is one. -/
def offset? : List Char → Option (List Char)
  | c :: cs =>
    if c = 'Z' ∨ c = 'z' then some cs
    else if c = '+' ∨ c = '-' then clock? cs
    else some (c :: cs)
  | [] => some []

/-- Whether a time of day starts here: an hour and a colon. -/
def startsTime (cs : List Char) : Bool :=
  ((fixedDigits? 2 0 23 cs).bind fun (_, rest) => mark? ':' rest).isSome

/-- Whether a date starts here: a year and a hyphen. -/
def startsDate (cs : List Char) : Bool :=
  ((fixedDigits? 4 0 9999 cs).bind fun (_, rest) => mark? '-' rest).isSome

/-- A date, with a time behind the letter T or a blank if one starts there. -/
def dateTime? (cs : List Char) : Option (List Char) := do
  let rest ← date? cs
  match rest with
  | c :: time =>
    if (c = 'T' ∨ c = 't' ∨ c = ' ') ∧ startsTime time then offset? (← time? time)
    else some rest
  | [] => some []

/-- A number, date or time. -/
def scalar? (cs : List Char) : Read Toml :=
  if startsDate cs then (dateTime? cs).map (moment, ·)
  else if startsTime cs then (time? cs).map (moment, ·)
  else (number? cs).map (number, ·)

end Toml

end Metamodel
