/-
Shortest decimals.

A number `mantissa · 2 ^ exponent` of a binary format stands for every real that rounds to it.  Its
decimal text is the decimal with the fewest digits among those reals; of two with equally few digits
the nearer one; and of two equally near the larger one.

The search looks at decimal grids from coarse to fine.  On each grid only the two neighbours of the
exact value can be hits, so it is enough to test these.  All comparisons are of natural numbers: a
grid point and the ends of the interval are brought to a common scale first.

Main definitions:

* `Rounding.interval` — the reals that round to a value, in quarters of its last place;
* `Shortest.onGrid` — the neighbour that a grid of `n` digits offers, if any;
* `Shortest.decimal` — the shortest decimal;
* `Decimal.positional` — digits and decimal point, never an exponent.
-/

set_option relaxedAutoImplicit false
set_option autoImplicit false

namespace Electrokinetics

/-- The value `digits · 10 ^ exponent`. -/
structure Decimal where
  /-- The digits, read as one natural number. -/
  digits : Nat
  /-- The power of ten that the digits are counted in. -/
  exponent : Int
  deriving DecidableEq, Repr

/-- A positive value of a binary format with the reals that round to it.  Everything is counted in
quarters of the last place, `2 ^ scale`. -/
structure Rounding where
  /-- The lower end. -/
  low : Nat
  /-- The value itself. -/
  value : Nat
  /-- The upper end. -/
  high : Nat
  /-- The exponent of the unit that the three are counted in. -/
  scale : Int
  /-- Whether the two ends belong to the interval. -/
  closed : Bool
  deriving DecidableEq, Repr

/-- The interval of `mantissa · 2 ^ exponent`: half a place to either side, but only a quarter below
a power of two, where the places get finer (`narrow`).  The ends round to the value exactly when its
mantissa is even. -/
def Rounding.interval (mantissa : Nat) (exponent : Int) (narrow : Bool) : Rounding where
  low := 4 * mantissa - (if narrow then 1 else 2)
  value := 4 * mantissa
  high := 4 * mantissa + 2
  scale := exponent - 2
  closed := mantissa % 2 == 0

namespace Shortest

/-- How many decimal digits a natural number has; `0` has none. -/
def digitCount (n : Nat) : Nat := if n = 0 then 0 else (Nat.toDigits 10 n).length

/-- The exponent of the leading decimal digit of `value · 2 ^ scale`. -/
def leadingExponent (r : Rounding) : Int :=
  let numerator := r.value * Nat.pow 2 r.scale.toNat
  let denominator := Nat.pow 2 (-r.scale).toNat
  if denominator ≤ numerator then (digitCount (numerator / denominator) : Int) - 1
  else -(digitCount ((denominator + numerator - 1) / numerator - 1) : Int)

/-- The grid points of `10 ^ exponent` and the interval of `r` on one scale: the first factor turns
a digit count, the second a bound of the interval, into the same unit. -/
def commonScale (r : Rounding) (exponent : Int) : Nat × Nat :=
  (Nat.pow 10 exponent.toNat * Nat.pow 2 (-r.scale).toNat,
    Nat.pow 2 r.scale.toNat * Nat.pow 10 (-exponent).toNat)

/-- Whether `digits · 10 ^ exponent` rounds to the value of `r`. -/
def readsBack (r : Rounding) (d : Decimal) : Bool :=
  let (point, bound) := commonScale r d.exponent
  let x := d.digits * point
  if r.closed then r.low * bound ≤ x && x ≤ r.high * bound
  else r.low * bound < x && x < r.high * bound

/-- The greatest multiple of `10 ^ exponent` that the value reaches. -/
def floorOn (r : Rounding) (exponent : Int) : Decimal :=
  let (point, bound) := commonScale r exponent
  ⟨r.value * bound / point, exponent⟩

/-- The neighbour of the value that the grid of `10 ^ exponent` offers: one that reads back, the
nearer if both do, and the upper one if they are equally near. -/
def onGrid (r : Rounding) (exponent : Int) : Option Decimal :=
  let (point, bound) := commonScale r exponent
  let x := r.value * bound
  let below := floorOn r exponent
  let above : Decimal := ⟨below.digits + 1, exponent⟩
  if readsBack r below then
    if readsBack r above && above.digits * point - x ≤ x - below.digits * point then some above
    else some below
  else if readsBack r above then some above
  else none

/-- The greatest number of digits that a double ever needs. -/
def maxDigits : Nat := 17

/-- Moves factors ten of the digits into the exponent, at most as many as given. -/
def trimmed (d : Decimal) : Nat → Decimal
  | 0 => d
  | fuel + 1 =>
    if d.digits % 10 = 0 then trimmed ⟨d.digits / 10, d.exponent + 1⟩ fuel else d

/-- The shortest decimal that reads back, without trailing zeros. -/
def decimal (r : Rounding) : Decimal :=
  let leading := leadingExponent r
  let found := (List.range maxDigits).findSome? fun n : Nat => onGrid r (leading - n)
  let d := found.getD (floorOn r (leading - maxDigits))
  trimmed d (digitCount d.digits)

end Shortest

/-- The digits in full: zeros up to the decimal point on the right, or a point inside or before the
digits; never an exponent, and no point in an integer. -/
def Decimal.positional (d : Decimal) : String :=
  let digits := Nat.toDigits 10 d.digits
  if 0 ≤ d.exponent then String.ofList (digits ++ List.replicate d.exponent.toNat '0')
  else
    let places := (-d.exponent).toNat
    if places < digits.length then
      let whole := digits.length - places
      String.ofList (digits.take whole ++ '.' :: digits.drop whole)
    else
      String.ofList ('0' :: '.' :: List.replicate (places - digits.length) '0' ++ digits)

end Electrokinetics
