/-
The numbers that kernels compute with.

Expressions, their evaluation, the sweeps and the profiles are written over an arbitrary type of
scalars, so that one definition serves two readings: binary floating point, in which every
operation rounds and the order of the operations can be seen in the result, and an exact field, in
which the transport laws hold.

Main definitions:

* `Scalar` — the operations themselves.  They are fields of one class with names of their own, so
  that an exact instance can be given beside the algebraic structure that its type already has;
* `Scalar.zero`, `Scalar.one`, `Scalar.half`, … — the constants that occur in kernels, all obtained
  from the integers by division;
* `Scalar.sum` — the sum of a list from left to right, which starts from negative zero.
-/

set_option relaxedAutoImplicit false
set_option autoImplicit false

namespace Electrokinetics

/-- The operations on numbers that kernels are built from.  The three comparisons and the test for
an integer are truth values, because the program branches on them. -/
class Scalar (K : Type) where
  /-- The nearest scalar to an integer. -/
  ofInt : Int → K
  /-- Addition. -/
  add : K → K → K
  /-- Multiplication. -/
  mul : K → K → K
  /-- Negation. -/
  neg : K → K
  /-- Division. -/
  div : K → K → K
  /-- The power of a base to a scalar exponent. -/
  pow : K → K → K
  /-- The square root. -/
  sqrt : K → K
  /-- The absolute value. -/
  abs : K → K
  /-- The smaller of two scalars. -/
  min : K → K → K
  /-- The larger of two scalars. -/
  max : K → K → K
  /-- The remainder by a modulus, never negative. -/
  rem : K → K → K
  /-- Equality of values. -/
  eq : K → K → Bool
  /-- The strict order. -/
  lt : K → K → Bool
  /-- The order. -/
  le : K → K → Bool
  /-- Whether the value is an integer. -/
  isInteger : K → Bool
  /-- The value of an integer, brought into the range of 64-bit signed integers. -/
  toInteger : K → Int
  /-- The decimal text of the value. -/
  text : K → String

namespace Scalar

variable {K : Type} [Scalar K]

/-- The scalar `0`. -/
def zero : K := ofInt 0

/-- The scalar `1`. -/
def one : K := ofInt 1

/-- The scalar `-1`. -/
def negOne : K := neg one

/-- The scalar `2`. -/
def two : K := ofInt 2

/-- The scalar `1/2`. -/
def half : K := div one two

/-- The difference of two scalars. -/
def sub (a b : K) : K := add a (neg b)

/-- The square root of a natural number. -/
def sqrtNat (n : Nat) : K := sqrt (ofInt n)

/-- Whether the value is zero. -/
def isZero (a : K) : Bool := eq a zero

/-- Whether the value is below zero. -/
def isNegative (a : K) : Bool := lt a zero

/-- The sum of a list from left to right.  It starts from negative zero, the one value that changes
no summand, so that a list of negative zeros has the sum negative zero. -/
def sum (values : List K) : K := values.foldl add (neg zero)

@[simp] theorem sum_nil : sum ([] : List K) = neg zero := rfl

theorem sum_concat (values : List K) (a : K) : sum (values ++ [a]) = add (sum values) a := by
  simp [sum]

end Scalar

end Electrokinetics
