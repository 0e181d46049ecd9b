import DotDoc.Decimal.Digit

set_option autoImplicit false

/-!
# Reading numbers

A number is read from digits with an optional sign, point and exponent, or from
one of the words for infinity and for what is not a number. Single underscores
may stand between digits, and blanks around the whole. Digits and blanks may be
those of any script.
-/

namespace DotDoc.Decimal

/-- Blanks that may surround a number. -/
def isBlank (c : Char) : Bool := c == ' ' || (9 ≤ c.toNat && c.toNat ≤ 13)

/-- A text without the blanks at both ends. -/
def trim (cs : List Char) : List Char :=
  ((cs.dropWhile isBlank).reverse.dropWhile isBlank).reverse

/-- Digits with single underscores between them, and what follows. There may be
no digit at all. -/
def digits : List Char → List Char × List Char
  | c :: '_' :: d :: rest =>
    if c.isDigit && d.isDigit then
      let (ds, rest) := digits (d :: rest)
      (c :: ds, rest)
    else if c.isDigit then ([c], '_' :: d :: rest) else ([], c :: '_' :: d :: rest)
  | c :: rest =>
    if c.isDigit then
      let (ds, rest) := digits rest
      (c :: ds, rest)
    else ([], c :: rest)
  | [] => ([], [])

/-- The number that digits stand for. -/
def digitsValue (ds : List Char) : Nat := ds.foldl (fun n c => 10 * n + (c.toNat - 48)) 0

/-- A sign, if there is one; true for minus. -/
def sign : List Char → Bool × List Char
  | '-' :: rest => (true, rest)
  | '+' :: rest => (false, rest)
  | cs => (false, cs)

/-- An exponent behind the digits, which may be missing. -/
def exponent? : List Char → Option Int
  | [] => some 0
  | c :: rest =>
    if c == 'e' || c == 'E' then
      let (negative, rest) := sign rest
      match digits rest with
      | ([], _) => none
      | (ds, []) => some (if negative then -(digitsValue ds : Int) else digitsValue ds)
      | _ => none
    else none

/-- The number `m * 10 ^ e`, where exponents far outside the range count as
infinitely large or small. -/
def ofScientific (m : Nat) (e : Int) : Float :=
  let size := ((Nat.toDigits 10 m).length : Int) + e
  if m = 0 || size < -400 then 0
  else if 400 < size then 1 / 0
  else Float.ofScientific m (e < 0) e.natAbs

/-- A number without sign. -/
def unsigned? (cs : List Char) : Option Float :=
  let word := cs.map Char.toLower
  if word == "inf".toList || word == "infinity".toList then some (1 / 0)
  else if word == "nan".toList then some (0 / 0)
  else
    let (whole, rest) := digits cs
    let (fraction, rest) := match rest with
      | '.' :: rest => digits rest
      | rest => ([], rest)
    if whole.isEmpty && fraction.isEmpty then none
    else do
      let e ← exponent? rest
      return ofScientific (digitsValue (whole ++ fraction)) (e - fraction.length)

/-- The number that a text stands for. -/
def read? (s : String) : Option Float :=
  let (negative, rest) := sign (trim (s.toList.map plain))
  (unsigned? rest).map fun x => if negative then -x else x

end DotDoc.Decimal
