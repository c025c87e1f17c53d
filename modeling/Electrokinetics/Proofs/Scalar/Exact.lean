/-
**Exact scalars.**

Doubles round, so a law of transport holds of them only up to rounding.  The laws themselves are
statements about exact arithmetic, and this module says what that is: an ordered field whose
operations are the ones that the expressions use.  Powers are only required to satisfy
`b ^ 1 = b`, `b ^ 0 = 1` and `1 ^ e = 1`, and nothing at all is required of the square root, so
that what is proved here holds of every approximation of the two that keeps these.  Sums and products
are often all that matters, and then nothing is required of any other operation.

Main definitions:

* `OrderedField` — the algebra;
* `ExactScalar` — the operations of a scalar type are those of its ordered field;
* `RingScalar` — its sums and products are.

Main results:

* `Scalar.foldl_add`, `Scalar.sum_eq` — sums of lists, from whatever they start;
* `Scalar.foldl_mul` — products of lists;
* `Scalar.eq_iff`, `Scalar.isZero_iff` — the tests that programs branch on.
-/

import Electrokinetics.Scalar
import Mathlib.Algebra.BigOperators.Group.List.Basic
import Mathlib.Algebra.Order.Field.Basic
import Mathlib.Algebra.Order.Group.Abs

set_option relaxedAutoImplicit false
set_option autoImplicit false

/-- A field with a linear order that its operations respect. -/
class OrderedField (K : Type) extends Field K, LinearOrder K, IsStrictOrderedRing K

namespace Electrokinetics

/-- The operations of a scalar type are those of an ordered field. -/
class ExactScalar (K : Type) [OrderedField K] [Scalar K] : Prop where
  /-- Every integer is a scalar. -/
  ofInt_eq (n : ℤ) : Scalar.ofInt n = (n : K)
  /-- Addition does not round. -/
  add_eq (a b : K) : Scalar.add a b = a + b
  /-- Multiplication does not round. -/
  mul_eq (a b : K) : Scalar.mul a b = a * b
  /-- The negative is the additive inverse. -/
  neg_eq (a : K) : Scalar.neg a = -a
  /-- Division does not round. -/
  div_eq (a b : K) : Scalar.div a b = a / b
  /-- The absolute value is that of the order. -/
  abs_eq (a : K) : Scalar.abs a = |a|
  /-- The minimum is that of the order. -/
  min_eq (a b : K) : Scalar.min a b = min a b
  /-- The maximum is that of the order. -/
  max_eq (a b : K) : Scalar.max a b = max a b
  /-- The test for equal values decides equality. -/
  eq_eq (a b : K) : Scalar.eq a b = decide (a = b)
  /-- The strict comparison decides the strict order. -/
  lt_eq (a b : K) : Scalar.lt a b = decide (a < b)
  /-- The comparison decides the order. -/
  le_eq (a b : K) : Scalar.le a b = decide (a ≤ b)
  /-- The first power of a base is the base. -/
  pow_one (b : K) : Scalar.pow b 1 = b
  /-- The power to the exponent zero is one. -/
  pow_zero (b : K) : Scalar.pow b 0 = 1
  /-- All powers of one are one. -/
  one_pow (e : K) : Scalar.pow 1 e = 1

/-- The sums and products of a scalar type are those of an ordered field. -/
class RingScalar (K : Type) [OrderedField K] [Scalar K] : Prop where
  /-- Every integer is a scalar. -/
  ofInt_eq (n : ℤ) : Scalar.ofInt n = (n : K)
  /-- Addition does not round. -/
  add_eq (a b : K) : Scalar.add a b = a + b
  /-- Multiplication does not round. -/
  mul_eq (a b : K) : Scalar.mul a b = a * b
  /-- The test for equal values decides equality. -/
  eq_eq (a b : K) : Scalar.eq a b = decide (a = b)

instance {K : Type} [OrderedField K] [Scalar K] [ExactScalar K] : RingScalar K where
  ofInt_eq := ExactScalar.ofInt_eq
  add_eq := ExactScalar.add_eq
  mul_eq := ExactScalar.mul_eq
  eq_eq := ExactScalar.eq_eq

namespace Scalar

/-! ### Sums, products and tests -/

section Ring

variable {K : Type} [OrderedField K] [Scalar K] [RingScalar K]

@[simp] theorem zero_eq : (zero : K) = 0 := by
  rw [zero, RingScalar.ofInt_eq, Int.cast_zero]

@[simp] theorem one_eq : (one : K) = 1 := by
  rw [one, RingScalar.ofInt_eq, Int.cast_one]

theorem foldl_add (values : List K) (a : K) : values.foldl add a = a + values.sum := by
  induction values generalizing a with
  | nil => simp
  | cons b values ih =>
      rw [List.foldl_cons, ih, RingScalar.add_eq, List.sum_cons, add_assoc]

/-- A product that starts from some number. -/
theorem foldl_mul (values : List K) (a : K) : values.foldl mul a = a * values.prod := by
  induction values generalizing a with
  | nil => simp
  | cons b values ih =>
      rw [List.foldl_cons, ih, RingScalar.mul_eq, List.prod_cons, mul_assoc]

theorem eq_iff {a b : K} : Scalar.eq a b = true ↔ a = b := by
  rw [RingScalar.eq_eq, decide_eq_true_eq]

theorem isZero_iff {a : K} : isZero a = true ↔ a = 0 := by
  rw [isZero, eq_iff, zero_eq]

end Ring

/-! ### Other constants -/

variable {K : Type} [OrderedField K] [Scalar K] [ExactScalar K]

@[simp] theorem negOne_eq : (negOne : K) = -1 := by
  rw [negOne, ExactScalar.neg_eq, one_eq]

@[simp] theorem two_eq : (two : K) = 2 := by
  rw [two, ExactScalar.ofInt_eq, Int.cast_ofNat]

@[simp] theorem half_eq : (half : K) = 1 / 2 := by
  rw [half, ExactScalar.div_eq, one_eq, two_eq]

/-- A sum that starts from negative zero starts from zero. -/
theorem sum_eq (values : List K) : sum values = values.sum := by
  rw [sum, foldl_add, ExactScalar.neg_eq, zero_eq, neg_zero, zero_add]

end Scalar

end Electrokinetics
