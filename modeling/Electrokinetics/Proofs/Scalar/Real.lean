/-
**The real numbers as scalars.**

The reals are the exact scalars that the transport laws are about.  No program computes with them;
they show that the laws of `ExactScalar` and `IntegerScalar` hold together.

Main definitions:

* `Exact.remainder`, `Exact.truncated` — the operations that the reals do not come with;
* `instScalarReal` — the instance.

Main results:

* `instExactScalarReal`, `instIntegerScalarReal` — the reals are exact.
-/

import Electrokinetics.Proofs.Scalar.Exact
import Electrokinetics.Proofs.Scalar.Integer
import Mathlib.Analysis.SpecialFunctions.Pow.Real

set_option relaxedAutoImplicit false
set_option autoImplicit false

namespace Electrokinetics

namespace Exact

/-- The remainder of a real number by a modulus, between zero and the size of the modulus. -/
noncomputable def remainder (a m : ℝ) : ℝ := a - |m| * ⌊a / |m|⌋

/-- The integral part of a real number, brought into the range of 64-bit signed integers. -/
noncomputable def truncated (a : ℝ) : ℤ :=
  max (-(2 ^ 63)) (min (2 ^ 63 - 1) (if 0 ≤ a then ⌊a⌋ else ⌈a⌉))

theorem remainder_intCast (n : ℤ) (length : ℕ) :
    remainder n length = ((n % length : ℤ) : ℝ) := by
  have hfloor : ⌊(n : ℝ) / (length : ℝ)⌋ = n / length := by
    rw [Int.floor_div_natCast, Int.floor_intCast]
  have hdiv : n % length = n - length * (n / length) := Int.emod_def n length
  rw [remainder, Nat.abs_cast, hfloor, hdiv]
  push_cast
  rfl

theorem truncated_intCast {n : ℤ} (h : n.natAbs ≤ exactBound) : truncated n = n := by
  have hn : n.natAbs ≤ 2 ^ 53 := h
  rw [truncated, Int.floor_intCast, Int.ceil_intCast, ite_self]
  omega

end Exact

open Classical in
noncomputable instance instScalarReal : Scalar ℝ where
  ofInt n := n
  add a b := a + b
  mul a b := a * b
  neg a := -a
  div a b := a / b
  pow a b := a ^ b
  sqrt := Real.sqrt
  abs a := |a|
  min a b := min a b
  max a b := max a b
  rem := Exact.remainder
  eq a b := decide (a = b)
  lt a b := decide (a < b)
  le a b := decide (a ≤ b)
  isInteger a := decide (∃ n : ℤ, (n : ℝ) = a)
  toInteger := Exact.truncated
  text _ := "a real number"

noncomputable instance instOrderedFieldReal : OrderedField ℝ where

instance instExactScalarReal : ExactScalar ℝ where
  ofInt_eq _ := rfl
  add_eq _ _ := rfl
  mul_eq _ _ := rfl
  neg_eq _ := rfl
  div_eq _ _ := rfl
  abs_eq _ := rfl
  min_eq _ _ := rfl
  max_eq _ _ := rfl
  eq_eq _ _ := decide_eq_decide.2 Iff.rfl
  lt_eq _ _ := decide_eq_decide.2 Iff.rfl
  le_eq _ _ := decide_eq_decide.2 Iff.rfl
  pow_one := Real.rpow_one
  pow_zero := Real.rpow_zero
  one_pow := Real.one_rpow

theorem Scalar.sqrtNat_eq (n : ℕ) : (sqrtNat n : ℝ) = √n := congrArg Real.sqrt (Int.cast_natCast n)

open Classical in
instance instIntegerScalarReal : IntegerScalar ℝ where
  isInteger_ofInt {n} _ := decide_eq_true ⟨n, rfl⟩
  toInteger_ofInt h := Exact.truncated_intCast h
  isZero_ofInt {n} _ h := decide_eq_false fun hz => h (Int.cast_injective hz)
  isInteger_rem {n length} _ _ _ :=
    decide_eq_true ⟨n % length, (Exact.remainder_intCast n length).symm⟩
  toInteger_rem {n length} _ hlength hbound := by
    have hmod : (n % length).natAbs ≤ exactBound := by
      have h0 := Int.emod_nonneg n (Int.natCast_ne_zero.2 hlength.ne')
      have h1 := Int.emod_lt_of_pos n (Int.natCast_pos.2 hlength)
      simp only [exactBound, extentBound] at *
      omega
    have hrem : Scalar.rem (Scalar.ofInt n) (Scalar.ofInt length) = ((n % length : ℤ) : ℝ) :=
      Exact.remainder_intCast n length
    rw [hrem]
    exact Exact.truncated_intCast hmod

end Electrokinetics
