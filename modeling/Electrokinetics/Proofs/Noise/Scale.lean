/-
**The amplitude of the noise is a scale.**

The amplitude on a face is computed from two concentrations, either of which may be negative, and from
the diffusion coefficient.  Three clamps keep it in bounds: each concentration counts as one at most, a
negative product of the two counts as zero, and so does a negative variance.  If both concentrations
are negative their product is positive and it is the last clamp that matters; if only one is, it is the
second.  Over the real numbers the amplitude is the square root of a variance that vanishes unless both
concentrations are positive and increases with each of them from there on, so that it can serve as a
scale of the noise whatever the concentrations are.

Main definitions:

* `dampedSum` — the sum of two concentrations, damped near empty cells;
* `faceAmplitude` — the amplitude of the noise between two concentrations.

Main results:

* `dampedSum_pos`, `dampedSum_nonpos`, `dampedSum_mono` — the sign of the damped sum and its growth;
* `lengthFactor_pos` — the length factor of a direction;
* `noiseAmplitude_is_scale` — the amplitude that is computed, its sign, its zeros, its symmetry and its
  growth.
-/

import Electrokinetics.Proofs.Noise.Amplitude

set_option relaxedAutoImplicit false
set_option autoImplicit false

namespace Electrokinetics

variable {a b a' b' D D' : ℝ}

/-! ### The damped sum -/

/-- The sum of the two concentrations of a face, damped near empty cells. -/
noncomputable def dampedSum (a b : ℝ) : ℝ := (b + a) * max 0 (min 1 b * min 1 a)

theorem dampedSum_comm (a b : ℝ) : dampedSum b a = dampedSum a b := by
  rw [dampedSum, dampedSum, add_comm, mul_comm (min 1 a)]

theorem dampedSum_pos (ha : 0 < a) (hb : 0 < b) : 0 < dampedSum a b := by
  have hproduct : 0 < min 1 b * min 1 a :=
    mul_pos (lt_min one_pos hb) (lt_min one_pos ha)
  exact mul_pos (add_pos hb ha) (lt_max_of_lt_right hproduct)

/-- Where just one concentration is positive the damping vanishes, and where none is the sum is not
positive. -/
theorem dampedSum_nonpos (h : a ≤ 0 ∨ b ≤ 0) : dampedSum a b ≤ 0 := by
  wlog ha : a ≤ 0 generalizing a b
  · rw [← dampedSum_comm]
    exact this h.symm (h.resolve_left ha)
  by_cases hb : b ≤ 0
  · exact mul_nonpos_of_nonpos_of_nonneg (add_nonpos hb ha) (le_max_left 0 _)
  · have hproduct : min 1 b * min 1 a ≤ 0 :=
      mul_nonpos_of_nonneg_of_nonpos (le_min zero_le_one (not_le.1 hb).le) (min_le_of_right_le ha)
    rw [dampedSum, max_eq_left hproduct, mul_zero]

theorem dampedSum_mono (ha : 0 < a) (hb : 0 < b) (haa : a ≤ a') (hbb : b ≤ b') :
    dampedSum a b ≤ dampedSum a' b' := by
  have ha' : 0 ≤ min 1 a := (lt_min one_pos ha).le
  have hb' : 0 ≤ min 1 b' := (lt_min one_pos (hb.trans_le hbb)).le
  have hproduct : min 1 b * min 1 a ≤ min 1 b' * min 1 a' :=
    mul_le_mul (min_le_min_left 1 hbb) (min_le_min_left 1 haa) ha' hb'
  have hsum : 0 ≤ b' + a' := add_nonneg (hb.le.trans hbb) (ha.le.trans haa)
  exact mul_le_mul (add_le_add hbb haa) (max_le_max_left 0 hproduct) (le_max_left 0 _) hsum

/-! ### The variance -/

/-- The variance of the noise between two concentrations, up to the factors of the direction. -/
noncomputable def faceVariance (a b D : ℝ) : ℝ := max 0 (dampedSum a b * D)

theorem faceVariance_nonneg (a b D : ℝ) : 0 ≤ faceVariance a b D := le_max_left _ _

theorem faceVariance_of_nonpos (hD : 0 ≤ D) (h : a ≤ 0 ∨ b ≤ 0) : faceVariance a b D = 0 :=
  max_eq_left (mul_nonpos_of_nonpos_of_nonneg (dampedSum_nonpos h) hD)

theorem faceVariance_eq_zero_iff (hD : 0 ≤ D) :
    faceVariance a b D = 0 ↔ D = 0 ∨ a ≤ 0 ∨ b ≤ 0 := by
  constructor
  · intro hzero
    by_contra! hpos
    obtain ⟨hne, ha, hb⟩ := hpos
    have hvariance := mul_pos (dampedSum_pos ha hb) (lt_of_le_of_ne hD hne.symm)
    exact absurd hzero (lt_max_of_lt_right hvariance).ne'
  · rintro (rfl | h)
    · rw [faceVariance, mul_zero, max_self]
    · exact faceVariance_of_nonpos hD h

/-- Below the smallest concentrations that count the variance is zero, and from there on it grows. -/
theorem faceVariance_mono (hD : 0 ≤ D) (haa : a ≤ a') (hbb : b ≤ b') (hDD : D ≤ D') :
    faceVariance a b D ≤ faceVariance a' b' D' := by
  by_cases h : a ≤ 0 ∨ b ≤ 0
  · rw [faceVariance_of_nonpos hD h]
    exact faceVariance_nonneg a' b' D'
  · obtain ⟨ha, hb⟩ := not_or.1 h
    have hsum := dampedSum_mono (not_le.1 ha) (not_le.1 hb) haa hbb
    have hpos := dampedSum_pos (not_le.1 ha) (not_le.1 hb)
    exact max_le_max_left 0 (mul_le_mul hsum hDD hD (hpos.le.trans hsum))

/-! ### The amplitude -/

theorem Offset.nonzeroAxes_ne_nil {n : Offset} (hn : n ≠ 0) : n.nonzeroAxes ≠ [] := by
  intro hnil
  refine hn (PerAxis.ext_get fun axis => ?_)
  rw [PerAxis.get_zero]
  by_contra haxis
  have hmem := mem_nonzeroAxes.2 haxis
  rw [hnil] at hmem
  cases hmem

theorem lengthFactor_pos {n : Offset} (hn : n ≠ 0) : 0 < (lengthFactor n : ℝ) := by
  rw [lengthFactor_eq]
  have haxes : 0 < n.nonzeroAxes.length := List.length_pos_iff.2 (n.nonzeroAxes_ne_nil hn)
  exact Real.rpow_pos_of_pos (Nat.cast_pos.2 haxes) _

/-- The amplitude of the noise on the face towards `n`, between the concentrations `a` and `b`. -/
noncomputable def faceAmplitude (n : Offset) (factor a b D : ℝ) : ℝ :=
  √(faceVariance a b D) * (lengthFactor n * factor)

theorem eval_faceAmplitude {env : Env ℝ} {c : Field} {n : Offset} {d : Expr ℝ}
    (ha : env.fields c.name 0 env.cell = some a)
    (hb : env.fields c.name 0 (env.cell + n) = some b) (hd : d.eval env = .ok D) (factor : ℝ) :
    (noiseAmplitude c n d factor).eval env = .ok (faceAmplitude n factor a b D) :=
  eval_noiseAmplitude_of_values (Expr.eval_access_here ha) (Expr.eval_access hb) hd factor

/-- **Noise amplitude as a scale**: for a direction, a factor and a diffusion coefficient that are not
negative, and for any two concentrations, the amplitude has a value.  It is not negative; it vanishes
if and only if the factor or the coefficient is zero or one of the concentrations is not positive; it
does not depend on the side from which the face is seen; and it does not decrease as a concentration
or the coefficient increases. -/
theorem noiseAmplitude_is_scale {n : Offset} {factor D : ℝ} (hn : n ≠ 0) (hfactor : 0 ≤ factor)
    (hD : 0 ≤ D) (a b : ℝ) :
    (∀ (env : Env ℝ) (c : Field) (d : Expr ℝ), env.fields c.name 0 env.cell = some a →
        env.fields c.name 0 (env.cell + n) = some b → d.eval env = .ok D →
        (noiseAmplitude c n d factor).eval env = .ok (faceAmplitude n factor a b D)) ∧
      0 ≤ faceAmplitude n factor a b D ∧
      (faceAmplitude n factor a b D = 0 ↔ factor = 0 ∨ D = 0 ∨ a ≤ 0 ∨ b ≤ 0) ∧
      faceAmplitude n factor b a D = faceAmplitude n factor a b D ∧
      ∀ a' b' D', a ≤ a' → b ≤ b' → D ≤ D' →
        faceAmplitude n factor a b D ≤ faceAmplitude n factor a' b' D' := by
  have hlength := lengthFactor_pos hn
  have hscale : 0 ≤ lengthFactor n * factor := mul_nonneg hlength.le hfactor
  refine ⟨fun env c d ha hb hd => eval_faceAmplitude ha hb hd factor,
    mul_nonneg (Real.sqrt_nonneg _) hscale, ?_, ?_, fun a' b' D' haa hbb hDD => ?_⟩
  · rw [faceAmplitude, mul_eq_zero, mul_eq_zero, Real.sqrt_eq_zero (faceVariance_nonneg a b D),
      faceVariance_eq_zero_iff hD, or_iff_right hlength.ne', or_comm]
  · rw [faceAmplitude, faceVariance, dampedSum_comm, ← faceVariance, ← faceAmplitude]
  · have hvariance := faceVariance_mono hD haa hbb hDD
    exact mul_le_mul_of_nonneg_right (Real.sqrt_le_sqrt hvariance) hscale

/-- Two empty cells, one of them overdrawn, receive no noise along the first axis. -/
theorem noiseAmplitude_is_scale_overdrawn :
    (noiseAmplitude (K := ℝ) (.scalar "c") ⟨1, 0, 0⟩ (.num 1) 1).eval
      ⟨fun _ _ _ => some (-1), .empty, 0⟩ = .ok 0 := by
  obtain ⟨heval, -, hzero, -⟩ := noiseAmplitude_is_scale (n := ⟨1, 0, 0⟩) (by decide) zero_le_one
    zero_le_one (-1) (-1)
  rw [← hzero.2 (.inr (.inr (.inl (by norm_num))))]
  exact heval _ _ _ rfl rfl rfl

end Electrokinetics
