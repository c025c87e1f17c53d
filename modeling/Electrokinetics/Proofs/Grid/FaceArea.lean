/-
**The effective face area in closed form.**

A face direction of a stencil has length one, an edge direction √2 and a corner direction √3.  A third
of the lengths of the staggered directions is one, and two square roots of two more with the edges,
and four thirds of a square root of three more with the corners.

Main results:

* `Stencil.faceArea_d3q7`, `Stencil.faceArea_d3q19`, `Stencil.faceArea_d3q27` — the closed forms;
* `Stencil.one_lt_faceArea` — only the stencil without edges has face area one;
* `Stencil.noiseFactor_eq` — the noise factor is the square root of the inverse face area.
-/

import Electrokinetics.Grid.Stencil
import Electrokinetics.Proofs.Scalar.Real

set_option relaxedAutoImplicit false
set_option autoImplicit false

namespace Electrokinetics

namespace Stencil

theorem faceArea_eq (stencil : Stencil) :
    (faceArea stencil : ℝ) =
      ((stencil.staggered.map fun direction => direction.offset.normSq).map
        fun m : ℤ => √(m : ℝ)).sum / 3 := by
  rw [faceArea, ExactScalar.div_eq, Scalar.sum_eq, ExactScalar.ofInt_eq, List.map_map]
  rfl

theorem faceArea_d3q7 : (faceArea d3q7 : ℝ) = 1 := by
  have hlengths : d3q7.staggered.map (fun direction => direction.offset.normSq) = [1, 1, 1] := by
    decide
  rw [faceArea_eq, hlengths]
  norm_num

theorem faceArea_d3q19 : (faceArea d3q19 : ℝ) = 1 + 2 * √2 := by
  have hlengths : d3q19.staggered.map (fun direction => direction.offset.normSq) =
      [1, 1, 1, 2, 2, 2, 2, 2, 2] := by
    decide
  rw [faceArea_eq, hlengths]
  norm_num
  ring

theorem faceArea_d3q27 : (faceArea d3q27 : ℝ) = 1 + 2 * √2 + 4 / 3 * √3 := by
  have hlengths : d3q27.staggered.map (fun direction => direction.offset.normSq) =
      [1, 1, 1, 2, 2, 2, 2, 2, 2, 3, 3, 3, 3] := by
    decide
  rw [faceArea_eq, hlengths]
  norm_num
  ring

theorem one_lt_faceArea {stencil : Stencil} (h : stencil ≠ d3q7) : (1 : ℝ) < faceArea stencil := by
  have htwo : (0 : ℝ) < √2 := Real.sqrt_pos.2 two_pos
  have hthree : (0 : ℝ) < √3 := Real.sqrt_pos.2 three_pos
  cases stencil with
  | d3q7 => exact absurd rfl h
  | d3q19 =>
      rw [faceArea_d3q19]
      linarith
  | d3q27 =>
      rw [faceArea_d3q27]
      linarith

theorem faceArea_pos (stencil : Stencil) : (0 : ℝ) < faceArea stencil := by
  by_cases h : stencil = d3q7
  · rw [h, faceArea_d3q7]
    exact one_pos
  · exact one_pos.trans (one_lt_faceArea h)

theorem noiseFactor_eq (stencil : Stencil) :
    (noiseFactor stencil : ℝ) = √(1 / faceArea stencil) := by
  have hsqrtNat (m : ℕ) : (Scalar.sqrtNat m : ℝ) = √m := Scalar.sqrtNat_eq m
  cases stencil with
  | d3q7 => rw [faceArea_d3q7, noiseFactor, Scalar.one_eq, one_div_one, Real.sqrt_one]
  | d3q19 =>
      rw [faceArea_d3q19, noiseFactor, ExactScalar.div_eq, ExactScalar.add_eq, ExactScalar.mul_eq,
        Scalar.one_eq, Scalar.two_eq, hsqrtNat]
      rfl
  | d3q27 =>
      have hthird : Scalar.div (Scalar.ofInt 4) (Scalar.ofInt 3) = (4 / 3 : ℝ) := by
        rw [ExactScalar.div_eq, ExactScalar.ofInt_eq, ExactScalar.ofInt_eq]
        norm_num
      rw [faceArea_d3q27, noiseFactor, hthird, ExactScalar.div_eq, ExactScalar.add_eq,
        ExactScalar.add_eq, ExactScalar.mul_eq, ExactScalar.mul_eq, Scalar.one_eq, Scalar.two_eq,
        hsqrtNat, hsqrtNat]
      rfl

end Stencil

end Electrokinetics
