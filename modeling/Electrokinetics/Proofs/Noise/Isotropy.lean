/-
**The noise of a stencil is isotropic.**

Every face brings noise into a cell along its own direction.  Summed over the staggered directions, the
variances of the components of this noise along the axes, and their covariances for two axes, do not
depend on the directions that a stencil happens to have: at a uniform concentration the variance is the
same along every axis and for every stencil, and two axes are uncorrelated.  The variance of a face is
proportional to the rate at which diffusion exchanges its two cells, and these rates are isotropic.

Main results:

* `sum_uniformAmplitude_sq` — variances and covariances at a uniform concentration;
* `noise_isotropic` — the same of the expressions for the amplitudes.
-/

import Electrokinetics.Proofs.Noise.Balance

set_option relaxedAutoImplicit false
set_option autoImplicit false

namespace Electrokinetics

theorem sum_uniformAmplitude_sq (stencil : Stencil) {ρ D : ℝ} (hρ : 0 < ρ) (hD : 0 ≤ D)
    (i j : Axis) :
    (stencil.staggered.map fun direction => uniformAmplitude stencil ρ D direction.offset ^ 2 *
      direction.offset.get i * direction.offset.get j).sum =
      if i = j then 2 * ρ * min 1 ρ ^ 2 * D else 0 := by
  have hface : ∀ direction ∈ stencil.staggered,
      uniformAmplitude stencil ρ D direction.offset ^ 2 * direction.offset.get i *
        direction.offset.get j =
      2 * dampedDensity ρ * (exchangeRate stencil D direction.offset *
        (direction.offset.get i * direction.offset.get j)) := by
    intro direction hdirection
    rw [uniformAmplitude_sq hdirection hρ hD]
    ring
  rw [List.map_congr_left hface, List.sum_map_mul_left, sum_exchangeRate]
  split
  · rw [dampedDensity, mul_assoc 2 ρ]
  · rw [mul_zero]

/-- **The noise is isotropic**, with every stencil in the same way: at a uniform concentration the
amplitudes of all faces have values, and the squares of these, weighted by the products of two
components of the directions, add up to one variance for an axis with itself and to nothing for two
axes. -/
theorem noise_isotropic (stencil : Stencil) (c : Field) (d : Expr ℝ) {env : Env ℝ} {ρ D : ℝ}
    (hρ : 0 < ρ) (hD : 0 ≤ D) (hc : c.HasValues env.fields fun _ => ρ) (hd : d.eval env = .ok D) :
    ∃ a : Direction → ℝ,
      (∀ direction ∈ stencil.staggered,
        (noiseAmplitude c direction.offset d stencil.noiseFactor).eval env = .ok (a direction)) ∧
      ∀ i j, (stencil.staggered.map fun direction =>
        a direction ^ 2 * direction.offset.get i * direction.offset.get j).sum =
          if i = j then 2 * ρ * min 1 ρ ^ 2 * D else 0 :=
  ⟨fun direction => uniformAmplitude stencil ρ D direction.offset,
    fun direction _ => eval_noiseAmplitude_uniform hρ hD hc hd direction.offset,
    sum_uniformAmplitude_sq stencil hρ hD⟩

/-- With faces, edges and corners, at a low concentration. -/
theorem noise_isotropic_corners :
    let env : Env ℝ := ⟨fun _ _ _ => some (1 / 4), Bindings.empty.insert "D" 3, ⟨2, -1, 5⟩⟩
    ∃ a : Direction → ℝ,
      (∀ direction ∈ Stencil.d3q27.staggered,
        (noiseAmplitude (.scalar "c") direction.offset (.real "D") Stencil.d3q27.noiseFactor).eval env =
          .ok (a direction)) ∧
      ∀ i j, (Stencil.d3q27.staggered.map fun direction =>
        a direction ^ 2 * direction.offset.get i * direction.offset.get j).sum =
          if i = j then 3 / 32 else 0 := by
  intro env
  have hc : (Field.scalar "c").HasValues env.fields fun _ => 1 / 4 := fun _ => rfl
  have hd : (Expr.real "D" : Expr ℝ).eval env = .ok 3 := rfl
  obtain ⟨a, hvalues, hsum⟩ := noise_isotropic .d3q27 (.scalar "c") (.real "D") (by norm_num)
    (by norm_num) hc hd
  have hmin : min 1 (1 / 4 : ℝ) = 1 / 4 := min_eq_right (by norm_num)
  have hvariance : 2 * (1 / 4) * min 1 (1 / 4) ^ 2 * 3 = (3 / 32 : ℝ) := by
    rw [hmin]
    norm_num
  exact ⟨a, hvalues, fun i j => by rw [hsum, hvariance]⟩

end Electrokinetics
