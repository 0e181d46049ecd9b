set_option autoImplicit false

/-!
# The shortest decimal

Every decimal that lies within half a unit of the last place of a floating-point
number reads back as that number. Of those decimals the ones with the fewest
digits are wanted, and of these the nearest. All comparisons are made in exact
arithmetic on a common denominator.
-/

namespace DotDoc.Decimal

/-- A positive number `value / den` with the bounds of what reads back as it.
The bounds themselves read back if `closed` holds. -/
structure Reading where
  value : Nat
  lower : Nat
  upper : Nat
  den : Nat
  closed : Bool

/-- A decimal `coefficient * 10 ^ exponent`. -/
structure Number where
  coefficient : Nat
  exponent : Int
deriving DecidableEq

namespace Reading

/-- The reading of the number `m * 2 ^ q`. The gap below a power of two is half
as wide as the one above unless it is among the least numbers. -/
def ofBinary (m : Nat) (q : Int) (narrowBelow : Bool) : Reading :=
  let up := Nat.pow 2 (q - 2).toNat
  { value := 4 * m * up
    lower := (4 * m - if narrowBelow then 1 else 2) * up
    upper := (4 * m + 2) * up
    den := Nat.pow 2 (2 - q).toNat
    closed := m % 2 == 0 }

/-- The greatest `e` with `10 ^ e` not above the value, for a value of at least
`10 ^ (-400)`. -/
def magnitude (r : Reading) : Int :=
  if r.den ≤ r.value then ((Nat.toDigits 10 (r.value / r.den)).length : Int) - 1
  else Int.neg (((List.range 400).find? fun k => r.den ≤ r.value * Nat.pow 10 k).getD 400)

/-- The reading with everything multiplied by `10 ^ (-k)`. -/
def scale (r : Reading) (k : Int) : Reading :=
  let up := Nat.pow 10 (-k).toNat
  { r with value := r.value * up, lower := r.lower * up, upper := r.upper * up
           den := r.den * Nat.pow 10 k.toNat }

/-- The whole number `d` reads back as the number. -/
def accepts (r : Reading) (d : Nat) : Bool :=
  if r.closed then r.lower ≤ d * r.den && d * r.den ≤ r.upper
  else r.lower < d * r.den && d * r.den < r.upper

/-- The whole number next to the value that reads back, if there is one; of two
the nearer, of two equally near the even one. -/
def nearest? (r : Reading) : Option Nat :=
  let d := r.value / r.den
  let below := r.value - d * r.den
  let above := (d + 1) * r.den - r.value
  match r.accepts d, r.accepts (d + 1) with
  | true, true => some (if below < above || (below == above && d % 2 == 0) then d else d + 1)
  | true, false => some d
  | false, true => some (d + 1)
  | false, false => none

/-- A decimal of `digits` digits that reads back. -/
def withDigits? (r : Reading) (digits : Nat) : Option Number :=
  let exponent := r.magnitude - ((digits : Int) - 1)
  (r.scale exponent).nearest?.map fun coefficient => { coefficient, exponent }

/-- The shortest decimal that reads back. Seventeen digits are always enough. -/
def shortest (r : Reading) : Number :=
  ((List.range 17).findSome? fun n => r.withDigits? (n + 1)).getD ⟨r.value / r.den, 0⟩

end Reading

end DotDoc.Decimal
