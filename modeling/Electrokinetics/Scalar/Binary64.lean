/-
Binary floating-point numbers of 64 bits, taken apart.

A finite double is a sign and an integer multiple of a power of two.  In that form its remainder by
another double, its value as an integer and its decimal digits are questions about natural numbers,
with no rounding to think about.

Main definitions:

* `Binary64` — a double as a signed infinity, a value that is not a number, or `± mantissa · 2 ^
  exponent`;
* `Binary64.ofBits`, `Binary64.ofFloat` — the reading of the interchange format;
* `Binary64.isInteger`, `Binary64.toInteger` — integral values, clamped to 64-bit signed integers;
* `Binary64.truncatedRemainder` — the remainder that takes its sign from the dividend; it is always
  exact.
-/

set_option relaxedAutoImplicit false
set_option autoImplicit false

namespace Electrokinetics

/-- A 64-bit binary floating-point number, taken apart. -/
inductive Binary64 where
  /-- The value `± mantissa · 2 ^ exponent`. -/
  | finite (negative : Bool) (mantissa : Nat) (exponent : Int)
  /-- An infinity. -/
  | infinite (negative : Bool)
  /-- A value that is not a number. -/
  | notANumber
  deriving DecidableEq, Repr

namespace Binary64

/-- The number of bits of the stored fraction. -/
def fractionBits : Nat := 52

/-- The exponent of the last place of a number without a leading one. -/
def leastExponent : Int := -1074

/-- Reads the interchange format: one sign bit, eleven bits of exponent, 52 bits of fraction. -/
def ofBits (bits : Nat) : Binary64 :=
  let negative := bits / Nat.pow 2 63 % 2 == 1
  let biased : Nat := bits / Nat.pow 2 fractionBits % Nat.pow 2 11
  let fraction : Nat := bits % Nat.pow 2 fractionBits
  if biased = 2047 then
    if fraction = 0 then .infinite negative else .notANumber
  else if biased = 0 then
    .finite negative fraction leastExponent
  else
    .finite negative (Nat.pow 2 fractionBits + fraction) (leastExponent + biased - 1)

/-- A double, taken apart. -/
def ofFloat (x : Float) : Binary64 := ofBits x.toBits.toNat

/-- The sign of a double. -/
def sign (negative : Bool) : Float.Model.UnpackedFloat.Sign :=
  if negative then .negative else .positive

/-- The double nearest to the value `± mantissa · 2 ^ exponent`. -/
def finiteFloat (negative : Bool) (mantissa : Nat) (exponent : Int) : Float :=
  .ofModel (.pack (.round .binary64 (sign negative) mantissa exponent))

/-- The integer nearest to zero in a signed magnitude. -/
def signed (negative : Bool) (magnitude : Nat) : Int :=
  if negative then -magnitude else magnitude

/-- Whether the value is finite and an integer. -/
def isInteger : Binary64 → Bool
  | .finite _ mantissa exponent => 0 ≤ exponent || mantissa % Nat.pow 2 (-exponent).toNat == 0
  | .infinite _ => false
  | .notANumber => false

/-- The least 64-bit signed integer. -/
def leastInteger : Int := -(Nat.pow 2 63)

/-- The greatest 64-bit signed integer. -/
def greatestInteger : Int := Nat.pow 2 63 - 1

/-- The integral part as a 64-bit signed integer: a value outside that range goes to its nearer
end, and a value that is not a number goes to `0`. -/
def toInteger : Binary64 → Int
  | .finite negative mantissa exponent =>
    let magnitude :=
      if 0 ≤ exponent then mantissa * Nat.pow 2 exponent.toNat
      else mantissa / Nat.pow 2 (-exponent).toNat
    max leastInteger (min greatestInteger (signed negative magnitude))
  | .infinite negative => if negative then leastInteger else greatestInteger
  | .notANumber => 0

/-- The remainder of `a` by `b` with the quotient cut towards zero: it has the sign of `a`, also
when it is zero.  There is none for an infinite dividend or a zero divisor, and an infinite divisor
leaves the dividend.  Both mantissas are brought to the smaller exponent, where the remainder is one
of natural numbers with at most 53 bits. -/
def truncatedRemainder (a b : Binary64) : Binary64 :=
  match a, b with
  | .finite negative m e, .finite _ m' e' =>
    if m' = 0 then .notANumber
    else
      let common := min e e'
      let aligned (mantissa : Nat) (exponent : Int) : Nat :=
        mantissa * Nat.pow 2 (exponent - common).toNat
      .finite negative (aligned m e % aligned m' e') common
  | .finite negative m e, .infinite _ => .finite negative m e
  | _, _ => .notANumber

/-- The double with a given value. -/
def toFloat : Binary64 → Float
  | .finite negative mantissa exponent => finiteFloat negative mantissa exponent
  | .infinite negative => if negative then -1 / 0 else 1 / 0
  | .notANumber => 0 / 0

@[simp] theorem isInteger_infinite (negative : Bool) : isInteger (.infinite negative) = false := rfl

theorem toInteger_mem_range (a : Binary64) :
    leastInteger ≤ a.toInteger ∧ a.toInteger ≤ greatestInteger := by
  cases a with
  | finite negative mantissa exponent =>
      simp only [toInteger, leastInteger, greatestInteger, Nat.pow_eq]
      omega
  | infinite negative => cases negative <;> decide
  | notANumber => decide

end Binary64

end Electrokinetics
