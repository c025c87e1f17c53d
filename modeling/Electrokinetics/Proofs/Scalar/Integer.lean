/-
**Integers among the scalars.**

Cells, extents, time steps and seeds are integers, but kernels handle them as scalars.  As long as
they are not too large nothing is lost on the way: a scalar that was made from an integer is read
back as that integer, and its remainder by an extent is the remainder of the integers.  This holds
of exact scalars and of doubles alike, so what follows from it holds of the kernels as they run.

The remainder itself is not said to be the scalar of the integer remainder: the remainder of a
negative double by a divisor of it is negative zero, which is a different double from zero but is
read as the same integer.

Main definitions:

* `exactBound`, `extentBound` — up to where integers and extents are exact;
* `IntegerScalar` — integers are read back, also after a remainder.
-/

import Electrokinetics.Scalar
import Mathlib.Algebra.Group.Nat.Defs

set_option relaxedAutoImplicit false
set_option autoImplicit false

namespace Electrokinetics

/-- The magnitude up to which every integer is a scalar. -/
def exactBound : Nat := 2 ^ 53

/-- The bound on extents. -/
def extentBound : Nat := 2 ^ 31

/-- Integers that are not too large are read back as they were, also after a remainder. -/
class IntegerScalar (K : Type) [Scalar K] : Prop where
  /-- The scalar of an integer is an integer. -/
  isInteger_ofInt {n : Int} : n.natAbs ≤ exactBound → Scalar.isInteger (Scalar.ofInt n : K)
  /-- The scalar of an integer is read back. -/
  toInteger_ofInt {n : Int} : n.natAbs ≤ exactBound → Scalar.toInteger (Scalar.ofInt n : K) = n
  /-- Only the integer zero is the scalar zero. -/
  isZero_ofInt {n : Int} : n.natAbs ≤ exactBound → n ≠ 0 → Scalar.isZero (Scalar.ofInt n : K) = false
  /-- The remainder by an extent is an integer. -/
  isInteger_rem {n : Int} {length : Nat} : n.natAbs ≤ exactBound → 0 < length →
    length < extentBound →
      Scalar.isInteger (Scalar.rem (Scalar.ofInt n) (Scalar.ofInt length) : K)
  /-- The remainder by an extent is read as the remainder of the integers. -/
  toInteger_rem {n : Int} {length : Nat} : n.natAbs ≤ exactBound → 0 < length →
    length < extentBound →
      Scalar.toInteger (Scalar.rem (Scalar.ofInt n) (Scalar.ofInt length) : K) = n % length

end Electrokinetics
