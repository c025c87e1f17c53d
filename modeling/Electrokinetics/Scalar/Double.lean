/-
Doubles as scalars.

Every operation rounds to nearest.  The remainder is exact and then made non-negative, minimum and
maximum ignore an operand that is not a number, and the text is the shortest decimal in positional
notation.

Main definitions:

* `Double.remainder`, `Double.minimum`, `Double.maximum` — the operations that the processor does
  not offer;
* `Double.text` — the decimal text;
* `instScalarFloat` — the instance.
-/

import Electrokinetics.Scalar
import Electrokinetics.Scalar.Binary64
import Electrokinetics.Scalar.Shortest

set_option relaxedAutoImplicit false
set_option autoImplicit false

namespace Electrokinetics

namespace Double

/-- The exact remainder with the sign of the dividend, raised by the size of the modulus if it is
below zero. -/
def remainder (a m : Float) : Float :=
  let r := (Binary64.truncatedRemainder (.ofFloat a) (.ofFloat m)).toFloat
  if r < 0 then r + m.abs else r

/-- The smaller operand; an operand that is not a number is ignored. -/
def minimum (a b : Float) : Float :=
  if a.isNaN then b else if b.isNaN then a else if b < a then b else a

/-- The larger operand; an operand that is not a number is ignored. -/
def maximum (a b : Float) : Float :=
  if a.isNaN then b else if b.isNaN then a else if a < b then b else a

/-- The text of a double: an optional sign, then the shortest decimal that reads back, without an
exponent and, for an integer, without a point.  Negative zero keeps its sign. -/
def text (x : Float) : String :=
  let sign (negative : Bool) (digits : String) := if negative then "-" ++ digits else digits
  match Binary64.ofFloat x with
  | .notANumber => "NaN"
  | .infinite negative => sign negative "inf"
  | .finite negative 0 _ => sign negative "0"
  | .finite negative mantissa exponent =>
    let narrow :=
      mantissa == Nat.pow 2 Binary64.fractionBits && Binary64.leastExponent < exponent
    sign negative (Shortest.decimal (.interval mantissa exponent narrow)).positional

end Double

instance instScalarFloat : Scalar Float where
  ofInt := Float.ofInt
  add a b := a + b
  mul a b := a * b
  neg a := -a
  div a b := a / b
  pow := Float.pow
  sqrt := Float.sqrt
  abs := Float.abs
  min := Double.minimum
  max := Double.maximum
  rem := Double.remainder
  eq a b := a == b
  lt a b := decide (a < b)
  le a b := decide (a ≤ b)
  isInteger a := (Binary64.ofFloat a).isInteger
  toInteger a := (Binary64.ofFloat a).toInteger
  text := Double.text

end Electrokinetics
