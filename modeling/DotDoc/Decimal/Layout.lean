import DotDoc.Decimal.Shortest

set_option autoImplicit false

/-!
# Numbers as text

A floating-point number is written with the shortest digits that read back. The
point stands among the digits for moderate magnitudes; otherwise an exponent
follows one leading digit.
-/

namespace DotDoc.Decimal

/-- The decisions that turn digits into text. -/
structure Layout where
  /-- The least exponent that is written without exponent notation. -/
  leastPlain : Int
  /-- The least exponent that is too large for plain notation. -/
  endPlain : Int
  /-- How many digits an exponent has at least. -/
  exponentWidth : Nat
  infinity : String
  notANumber : String

/-- Numbers are plain from `0.0001` up to sixteen digits in front of the point,
and an exponent has a sign and two digits. -/
def Layout.standard : Layout := ⟨-4, 16, 2, "inf", "nan"⟩

/-- The digits without the zeros at their end. -/
def significant (ds : List Char) : List Char :=
  match (ds.reverse.dropWhile (· == '0')).reverse with
  | [] => ['0']
  | ds => ds

/-- A sign and an exponent of at least the given width. -/
def exponentText (width : Nat) (e : Int) : List Char :=
  let ds := Nat.toDigits 10 e.natAbs
  'e' :: (if e < 0 then '-' else '+') :: List.replicate (width - ds.length) '0' ++ ds

/-- Digits with the point behind the first `e + 1` of them, in plain notation. -/
def plainText (ds : List Char) (e : Int) : List Char :=
  if e < 0 then '0' :: '.' :: List.replicate (-e - 1).toNat '0' ++ ds
  else
    let whole := (e + 1).toNat
    if ds.length ≤ whole then ds ++ List.replicate (whole - ds.length) '0' ++ ['.', '0']
    else ds.take whole ++ '.' :: ds.drop whole

/-- Digits with the point behind the first of them, and the exponent. -/
def scientificText (width : Nat) (ds : List Char) (e : Int) : List Char :=
  match ds with
  | [] => []
  | [d] => d :: exponentText width e
  | d :: rest => d :: '.' :: rest ++ exponentText width e

/-- The text of a positive decimal. -/
def Layout.decimal (layout : Layout) (x : Number) : List Char :=
  let ds := Nat.toDigits 10 x.coefficient
  let e := x.exponent + ((ds.length : Int) - 1)
  if layout.leastPlain ≤ e && e < layout.endPlain then plainText (significant ds) e
  else scientificText layout.exponentWidth (significant ds) e

/-- The bits of a floating-point number in their three fields. -/
structure Fields where
  negative : Bool
  exponent : Nat
  fraction : Nat

def Fields.ofFloat (x : Float) : Fields :=
  let bits := x.toBits.toNat
  { negative := bits / Nat.pow 2 63 == 1
    exponent := bits / Nat.pow 2 52 % Nat.pow 2 11
    fraction := bits % Nat.pow 2 52 }

/-- The number without its sign is `m * 2 ^ q`, if it is finite. -/
def Fields.magnitude? (f : Fields) : Option (Nat × Int) :=
  if f.exponent = 2047 then none
  else if f.exponent = 0 then some (f.fraction, -1074)
  else some (Nat.pow 2 52 + f.fraction, (f.exponent : Int) - 1075)

/-- The text of a floating-point number. -/
def Layout.float (layout : Layout) (x : Float) : String :=
  let f := Fields.ofFloat x
  let sign := if f.negative then "-" else ""
  match f.magnitude? with
  | none => if f.fraction = 0 then sign ++ layout.infinity else layout.notANumber
  | some (m, q) =>
    if m = 0 then sign ++ "0.0"
    else
      let r := Reading.ofBinary m q (f.fraction == 0 && f.exponent > 1)
      sign ++ String.ofList (layout.decimal r.shortest)

end DotDoc.Decimal
