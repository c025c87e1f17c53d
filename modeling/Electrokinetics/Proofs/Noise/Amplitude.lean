/-
**How strong the noise of a flux is.**

The random flux through a face has an amplitude that follows from the two concentrations and the
diffusion coefficient, and a random number of the unit interval that is moved to mean zero and
stretched to variance one.  Here both are evaluated in exact arithmetic, and over the real numbers
they are brought into closed form.

Main definitions:

* `damping` — the factor by which the noise is weaker near empty cells;
* `noiseStrength` — the amplitude of the random flux through a face, in closed form.

Main results:

* `eval_noiseAmplitude_of_values`, `eval_rescaledNoise` — the two parts of the noise;
* `lengthFactor_eq` — the length factor is a fourth root;
* `eval_noise` — the noise on a face.
-/

import Electrokinetics.Noise.Fluctuation
import Electrokinetics.Proofs.Transport.Values

set_option relaxedAutoImplicit false
set_option autoImplicit false

namespace Electrokinetics

open Electrokinetics.Expr

/-! ### Amplitude and random number -/

section Exact

variable {K : Type} [OrderedField K] {C : Cell → K} {n : Offset}

/-- The smaller the two concentrations of a face, below one each, the weaker the noise.  It vanishes
where one of them is negative. -/
def damping (C : Cell → K) (x : Cell) (n : Offset) : K :=
  max 0 (min 1 (C (x + n)) * min 1 (C x))

variable [Scalar K] [ExactScalar K] {env : Env K} {c : Field} {d : Expr K} {a b D : K}

theorem eval_faceDensity (ha : (c.center : Expr K).eval env = .ok a)
    (hb : (c.neighbor n : Expr K).eval env = .ok b) :
    (faceDensity c n : Expr K).eval env =
      .ok ((b + a) / 2 * max 0 (min 1 b * min 1 a)) := by
  have hone : (one : Expr K).eval env = .ok 1 := congrArg Except.ok Scalar.one_eq
  have hzero : (zero : Expr K).eval env = .ok 0 := congrArg Except.ok Scalar.zero_eq
  have hhalf : (num Scalar.half : Expr K).eval env = .ok (1 / 2) :=
    congrArg Except.ok Scalar.half_eq
  have hdamping : (densityDamping c n : Expr K).eval env = .ok (max 0 (min 1 b * min 1 a)) := by
    rw [max_comm, min_comm 1, min_comm 1]
    exact eval_max (eval_mul (eval_min hb hone) (eval_min ha hone)) hzero
  have hdensity := eval_mul (eval_mul (eval_add hb ha) hhalf) hdamping
  rwa [mul_one_div] at hdensity

/-- The amplitude depends on the concentrations of the two cells that share the face.  The half of
their mean and the two of the variance cancel. -/
theorem eval_noiseAmplitude_of_values (ha : (c.center : Expr K).eval env = .ok a)
    (hb : (c.neighbor n : Expr K).eval env = .ok b) (hd : d.eval env = .ok D) (factor : K) :
    (noiseAmplitude c n d factor).eval env = .ok (Scalar.sqrt (max 0
      ((b + a) * max 0 (min 1 b * min 1 a) * D)) * (lengthFactor n * factor)) := by
  have htwo : (num Scalar.two : Expr K).eval env = .ok 2 := congrArg Except.ok Scalar.two_eq
  have hzero : (zero : Expr K).eval env = .ok 0 := congrArg Except.ok Scalar.zero_eq
  have hproduct : (b + a) * max 0 (min 1 b * min 1 a) * D =
      2 * ((b + a) / 2 * max 0 (min 1 b * min 1 a)) * D := by
    ring
  have hvariance := eval_max (eval_mul (eval_mul htwo (eval_faceDensity ha hb)) hd) hzero
  rw [hproduct, max_comm, ← ExactScalar.mul_eq (lengthFactor n)]
  exact eval_mul (eval_sqrt hvariance) rfl

theorem eval_noiseAmplitude (hc : c.HasValues env.fields C) (hd : d.eval env = .ok D) (factor : K) :
    (noiseAmplitude c n d factor).eval env = .ok (Scalar.sqrt (max 0
      ((C (env.cell + n) + C env.cell) * damping C env.cell n * D)) * (lengthFactor n * factor)) :=
  eval_noiseAmplitude_of_values hc.eval_center (hc.eval_neighbor n) hd factor

theorem eval_rescaledNoise {k : ℕ} {ξ : K} (h : env.bindings.get? (noiseName k) = some ξ) :
    (rescaledNoise k : Expr K).eval env = .ok ((ξ - 1 / 2) * (2 * Scalar.sqrtNat 3)) := by
  have hnumber : (real (noiseName k) : Expr K).eval env = .ok ξ := by
    simp only [real, eval, h]
  have hhalf : (num Scalar.half : Expr K).eval env = .ok (1 / 2) :=
    congrArg Except.ok Scalar.half_eq
  have hscale : (2 * Scalar.sqrtNat 3 : K) = Scalar.mul Scalar.two (Scalar.sqrtNat 3) := by
    rw [ExactScalar.mul_eq, Scalar.two_eq]
  rw [hscale]
  exact eval_mul (eval_sub hnumber hhalf) rfl

end Exact

/-! ### Over the real numbers -/

/-- The length factor of a direction is the fourth root of the inverse number of its axes. -/
theorem lengthFactor_eq (n : Offset) :
    (lengthFactor n : ℝ) = (n.nonzeroAxes.length : ℝ) ^ (-(1 / 4) : ℝ) := by
  have haxes : (0 : ℝ) ≤ n.nonzeroAxes.length := Nat.cast_nonneg _
  have hroot : (lengthFactor n : ℝ) = √(√(n.nonzeroAxes.length : ℝ))⁻¹ := by
    rw [← one_div, ← Scalar.sqrtNat_eq, ← Scalar.one_eq, ← ExactScalar.div_eq]
    rfl
  rw [hroot, Real.sqrt_eq_rpow, Real.sqrt_eq_rpow, ← Real.rpow_neg haxes, ← Real.rpow_mul haxes]
  norm_num

/-- The amplitude of the random flux through the face towards `n`. -/
noncomputable def noiseStrength (C : Cell → ℝ) (D factor : ℝ) (x : Cell) (n : Offset) : ℝ :=
  √(max 0 ((C (x + n) + C x) * damping C x n * D)) * (n.nonzeroAxes.length : ℝ) ^ (-(1 / 4) : ℝ) *
    factor

/-- The noise on a face, from a random number of the unit interval. -/
theorem eval_noise {env : Env ℝ} {n : Offset} {c : Field} {C : Cell → ℝ} {d : Expr ℝ} {D : ℝ}
    (hc : c.HasValues env.fields C) (hd : d.eval env = .ok D) (factor : ℝ) {k : ℕ} {ξ : ℝ}
    (hnoise : env.bindings.get? (noiseName k) = some ξ) :
    (noiseAmplitude c n d factor * rescaledNoise k).eval env =
      .ok (noiseStrength C D factor env.cell n * (2 * √3) * (ξ - 1 / 2)) := by
  have hproduct := eval_mul (eval_noiseAmplitude (n := n) hc hd factor) (eval_rescaledNoise hnoise)
  have hthree : (Scalar.sqrtNat 3 : ℝ) = √3 := Scalar.sqrtNat_eq 3
  have hvalue : noiseStrength C D factor env.cell n * (2 * √3) * (ξ - 1 / 2) =
      Scalar.sqrt (max 0 ((C (env.cell + n) + C env.cell) * damping C env.cell n * D)) *
        (lengthFactor n * factor) * ((ξ - 1 / 2) * (2 * Scalar.sqrtNat 3)) := by
    rw [noiseStrength, lengthFactor_eq, hthree]
    change _ = √(max 0 ((C (env.cell + n) + C env.cell) * damping C env.cell n * D)) * _ * _
    ring
  rw [hvalue]
  exact hproduct

end Electrokinetics
