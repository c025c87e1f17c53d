/-
**The second moments of a stencil.**

The product of two components of a direction, over its length, is summed over the staggered directions.
For two different axes the sum is zero, and for an axis with itself it is the face area, whatever the
stencil.  The symmetries of the grid say so without a look at the directions: to reverse an axis
permutes the neighbours and changes the sign of a mixed product, to exchange two axes permutes the
neighbours and exchanges the squares, and the squares of all three components over the length are the
length again.

Main definitions:

* `Stencil.moment` — the sum for two axes;
* `GridSymmetry.reversal`, `GridSymmetry.exchange` — one axis reversed, two axes exchanged.

Main results:

* `Stencil.moment_eq` — the moments of a stencil.
-/

import Electrokinetics.Proofs.Grid.FaceArea
import Electrokinetics.Proofs.Grid.Symmetry

set_option relaxedAutoImplicit false
set_option autoImplicit false

namespace Electrokinetics

/-! ### Axes as a finite type -/

instance : Fintype Axis := ⟨⟨Axis.all, by decide⟩, Axis.mem_all⟩

theorem Axis.prod_univ {M : Type} [CommMonoid M] (f : Axis → M) :
    ∏ axis, f axis = (Axis.all.map f).prod := rfl

theorem Axis.sum_univ {M : Type} [AddCommMonoid M] (f : Axis → M) :
    ∑ axis, f axis = (Axis.all.map f).sum := rfl

/-! ### Reversed and exchanged axes -/

namespace GridSymmetry

/-- One axis is reversed. -/
def reversal (axis : Axis) : GridSymmetry := ⟨1, fun other => if other = axis then -1 else 1, 0⟩

/-- Two axes are exchanged. -/
def exchange (i j : Axis) : GridSymmetry := ⟨Equiv.swap i j, fun _ => 1, 0⟩

theorem get_turn_reversal (axis other : Axis) (n : Offset) :
    ((reversal axis).turn n).get other = if other = axis then -n.get other else n.get other := by
  have hother : ((reversal axis).turn n).get other =
      (if other = axis then (-1 : ℤˣ) else 1 : ℤˣ) * n.get other := (reversal axis).get_turn n other
  rw [hother]
  split
  · rw [Units.val_neg, Units.val_one, neg_one_mul]
  · rw [Units.val_one, one_mul]

theorem get_turn_exchange (i j : Axis) (n : Offset) :
    ((exchange i j).turn n).get j = n.get i := by
  have h := (exchange i j).get_turn n i
  rwa [exchange, Equiv.swap_apply_left, Units.val_one, Int.cast_one, one_mul] at h

end GridSymmetry

/-! ### Moments -/

namespace Stencil

/-- The product of two components of a direction, over its length. -/
noncomputable def productOverLength (i j : Axis) (n : Offset) : ℝ := n.get i * n.get j / √n.normSq

/-- The products of two components over the length, summed over the staggered directions. -/
noncomputable def moment (s : Stencil) (i j : Axis) : ℝ :=
  (s.staggered.map fun direction => productOverLength i j direction.offset).sum

variable (s : Stencil) {i j : Axis}

/-- Opposite directions contribute the same, so the sum over all neighbours is twice the moment. -/
theorem sum_offsets_product (i j : Axis) :
    (s.offsets.map (productOverLength i j)).sum = 2 * s.moment i j := by
  have hopposite (n : Offset) : productOverLength i j (-n) = productOverLength i j n := by
    rw [productOverLength, productOverLength, Offset.normSq_neg, PerAxis.get_neg, PerAxis.get_neg,
      Int.cast_neg, Int.cast_neg, neg_mul_neg]
  rw [s.sum_offsets, moment, ← List.sum_map_mul_left]
  simp only [hopposite, two_mul]

theorem moment_of_ne (h : i ≠ j) : s.moment i j = 0 := by
  let g := GridSymmetry.reversal i
  have hsign (n : Offset) : productOverLength i j (g.turn n) = -1 * productOverLength i j n := by
    rw [productOverLength, productOverLength, g.normSq_turn, GridSymmetry.get_turn_reversal, if_pos rfl,
      GridSymmetry.get_turn_reversal, if_neg h.symm, Int.cast_neg]
    ring
  have hsum := s.sum_offsets_turn g (productOverLength i j)
  simp only [hsign] at hsum
  rw [List.sum_map_mul_left, s.sum_offsets_product] at hsum
  linarith

theorem moment_exchange (i j : Axis) : s.moment i i = s.moment j j := by
  let g := GridSymmetry.exchange i j
  have hsquare (n : Offset) : productOverLength j j (g.turn n) = productOverLength i i n := by
    rw [productOverLength, productOverLength, g.normSq_turn, GridSymmetry.get_turn_exchange]
  have hsum := s.sum_offsets_turn g (productOverLength j j)
  simp only [hsquare] at hsum
  have hdouble : 2 * s.moment i i = 2 * s.moment j j :=
    ((s.sum_offsets_product i i).symm.trans hsum).trans (s.sum_offsets_product j j)
  linarith

/-- The squares of all components over the length are the length. -/
theorem moment_add_moment : s.moment .x .x + s.moment .y .y + s.moment .z .z = 3 * faceArea s := by
  have hlength (n : Offset) : productOverLength .x .x n + productOverLength .y .y n +
      productOverLength .z .z n = √(n.normSq : ℝ) := by
    have hsquare : (n.normSq : ℝ) = n.x * n.x + n.y * n.y + n.z * n.z := by
      rw [Offset.normSq]
      push_cast
      rfl
    rw [productOverLength, productOverLength, productOverLength, ← add_div, ← add_div]
    exact (congrArg (· / √(n.normSq : ℝ)) hsquare.symm).trans Real.div_sqrt
  rw [moment, moment, moment, ← List.sum_map_add, ← List.sum_map_add, faceArea_eq, List.map_map]
  simp only [hlength]
  exact (mul_div_cancel₀ _ three_ne_zero).symm

/-- The moments of a stencil: the face area for an axis with itself, and nothing for two axes. -/
theorem moment_eq (i j : Axis) : s.moment i j = if i = j then (faceArea s : ℝ) else 0 := by
  split
  · rename_i h
    subst h
    have hall := s.moment_add_moment
    rw [s.moment_exchange .x i, s.moment_exchange .y i, s.moment_exchange .z i] at hall
    linarith
  · rename_i h
    exact s.moment_of_ne h

end Stencil

end Electrokinetics
