/-
**Fluctuation and dissipation.**

Diffusion takes differences of concentration away, and noise puts them back.  The two are in balance if
the noise that a face brings into a cell has the variance that belongs to the rate at which diffusion
exchanges the two cells: twice this rate, times the density that the noise is computed from.

The noise of a stored flux has just that variance.  But the update does not add a flux as it is: it
multiplies it by a weight, the inverse of the face area.  The rate of the exchange has this weight in it
already, the amplitude of the noise gets it once more, and its variance falls short by the square.  So
there is a balance with the stencil of faces, where the weight is one, and with no other.

Main definitions:

* `dampedDensity` — the density that the noise is computed from;
* `uniformAmplitude` — the amplitude of the noise at a uniform concentration.

Main results:

* `eval_noiseAmplitude_uniform`, `uniformAmplitude_sq` — the amplitude at a uniform concentration;
* `fluctuation_dissipation` — all of them together, and when they balance;
* `edges_out_of_balance` — a face of a stencil with edges.
-/

import Electrokinetics.Proofs.Expr.Lookup
import Electrokinetics.Proofs.Noise.Amplitude
import Electrokinetics.Proofs.Transport.Exchange

set_option relaxedAutoImplicit false
set_option autoImplicit false

namespace Electrokinetics

open Electrokinetics.Expr

/-! ### The amplitude at a uniform concentration -/

/-- The density from which the noise at a uniform concentration is computed. -/
noncomputable def dampedDensity (ρ : ℝ) : ℝ := ρ * min 1 ρ ^ 2

/-- The square of the length of a direction is the number of its axes. -/
theorem Stencil.normSq_eq_length {stencil : Stencil} {direction : Direction}
    (h : direction ∈ stencil.staggered) :
    direction.offset.normSq = direction.offset.nonzeroAxes.length := by
  have hall : ∀ direction ∈ d3q27.staggered,
      direction.offset.normSq = direction.offset.nonzeroAxes.length := by
    decide
  exact hall direction (stencil.staggered_sublist.subset h)

/-- The amplitude of the noise through a face, at a uniform concentration. -/
noncomputable def uniformAmplitude (stencil : Stencil) (ρ D : ℝ) (n : Offset) : ℝ :=
  √(2 • (dampedDensity ρ * D)) * (lengthFactor n * stencil.noiseFactor)

theorem eval_noiseAmplitude_uniform {stencil : Stencil} {env : Env ℝ} {c : Field} {d : Expr ℝ}
    {ρ D : ℝ} (hρ : 0 < ρ) (hD : 0 ≤ D) (hc : c.HasValues env.fields fun _ => ρ)
    (hd : d.eval env = .ok D) (n : Offset) :
    (noiseAmplitude c n d stencil.noiseFactor).eval env = .ok (uniformAmplitude stencil ρ D n) := by
  have hmin : 0 ≤ min 1 ρ * min 1 ρ := mul_self_nonneg _
  have hvariance : max 0 ((ρ + ρ) * damping (fun _ => ρ) env.cell n * D) =
      2 • (dampedDensity ρ * D) := by
    rw [damping, max_eq_right hmin, dampedDensity, max_eq_right (by positivity)]
    ring
  rw [eval_noiseAmplitude hc hd, hvariance, uniformAmplitude]
  rfl

/-- The variance of the noise in the flux is the one that belongs to the exchange. -/
theorem uniformAmplitude_sq {stencil : Stencil} {direction : Direction}
    (hdirection : direction ∈ stencil.staggered) {ρ D : ℝ} (hρ : 0 < ρ) (hD : 0 ≤ D) :
    uniformAmplitude stencil ρ D direction.offset ^ 2 =
      2 * dampedDensity ρ * exchangeRate stencil D direction.offset := by
  have hvariance : 0 ≤ 2 • (dampedDensity ρ * D) := by
    rw [dampedDensity]
    positivity
  have hlength : (lengthFactor direction.offset : ℝ) ^ 2 = 1 / √direction.offset.normSq := by
    have haxes : (0 : ℝ) ≤ direction.offset.nonzeroAxes.length := Nat.cast_nonneg _
    rw [Stencil.normSq_eq_length hdirection, lengthFactor_eq, Int.cast_natCast, Real.sqrt_eq_rpow,
      one_div (_ ^ _), ← Real.rpow_neg haxes, ← Real.rpow_natCast, ← Real.rpow_mul haxes]
    norm_num
  have hfactor : (stencil.noiseFactor : ℝ) ^ 2 = FiniteVolume.faceWeight stencil := by
    rw [Stencil.noiseFactor_eq]
    exact Real.sq_sqrt (FiniteVolume.faceWeight_pos stencil).le
  rw [uniformAmplitude, mul_pow, mul_pow, Real.sq_sqrt hvariance, hlength, hfactor, exchangeRate]
  ring

theorem uniformAmplitude_nonneg (stencil : Stencil) (ρ D : ℝ) (n : Offset) :
    0 ≤ uniformAmplitude stencil ρ D n := by
  have hlength : (0 : ℝ) ≤ lengthFactor n := by
    rw [lengthFactor_eq]
    positivity
  have hfactor : (0 : ℝ) ≤ stencil.noiseFactor := by
    rw [Stencil.noiseFactor_eq]
    positivity
  rw [uniformAmplitude]
  positivity

/-! ### Balance -/

theorem dampedDensity_pos {ρ : ℝ} (hρ : 0 < ρ) : 0 < dampedDensity ρ := by
  have hmin : 0 < min 1 ρ := lt_min one_pos hρ
  rw [dampedDensity]
  positivity

/-- What the update adds of the noise has the variance that belongs to the exchange only where the
weight is one, or where there is neither. -/
theorem weighted_sq_eq_iff {stencil : Stencil} {direction : Direction}
    (hdirection : direction ∈ stencil.staggered) {ρ D : ℝ} (hρ : 0 < ρ) (hD : 0 ≤ D) :
    (FiniteVolume.faceWeight stencil * uniformAmplitude stencil ρ D direction.offset) ^ 2 =
        2 * dampedDensity ρ * exchangeRate stencil D direction.offset ↔
      stencil = .d3q7 ∨ D = 0 := by
  have hweight := FiniteVolume.faceWeight_pos stencil
  have hlength : 0 < √(direction.offset.normSq : ℝ) := by
    rw [Stencil.normSq_eq_length hdirection, Int.cast_natCast, Real.sqrt_pos, Nat.cast_pos]
    exact List.length_pos_iff.2 (Stencil.nonzeroAxes_ne_nil hdirection)
  have hdensity : 2 * dampedDensity ρ ≠ 0 := (mul_pos two_pos (dampedDensity_pos hρ)).ne'
  have hnone : 2 * dampedDensity ρ * exchangeRate stencil D direction.offset = 0 ↔ D = 0 := by
    rw [exchangeRate, mul_eq_zero_iff_left hdensity, mul_eq_zero_iff_right hweight.ne',
      div_eq_zero_iff, or_iff_left hlength.ne']
  have hone : FiniteVolume.faceWeight stencil ^ 2 = 1 ↔ stencil = .d3q7 := by
    rw [pow_eq_one_iff_of_nonneg hweight.le two_ne_zero, FiniteVolume.faceWeight_eq_one_iff]
  rw [mul_pow, uniformAmplitude_sq hdirection hρ hD, mul_left_eq_self₀, hnone, hone]

/-- **Fluctuation and dissipation** of a step.  Without velocity and in a constant potential a step adds
every neighbour with its exchange rate; the update adds every stored flux with the weight of a face; and
the noise, weighted so, falls short of the variance that belongs to the exchange by the square of the
weight.  This is a balance for the stencil of faces, and for any other only without diffusion. -/
theorem fluctuation_dissipation {domain : Domain} (s : Store ℝ domain) (b : Bindings ℝ)
    (c v pot j : Field) (d z : Expr ℝ) {stencil : Stencil} (hj : j.kind = .flux stencil)
    (hcomponents : Axis.z.index < v.components) (hname : c.name ≠ j.name) {C : Cell → ℝ}
    {D Z potential ρ : ℝ} (hC : c.HasValues s.get? C) (hpot : pot.HasValues s.get? fun _ => potential)
    (hv : ∀ axis : Axis, ∀ y, s.get? v.name axis.index y = some 0) (hd : d.hasAccess = false)
    (hz : z.hasAccess = false) (hD : ∀ x, d.eval ⟨s.get?, b, x⟩ = .ok D)
    (hZ : ∀ x, z.eval ⟨s.get?, b, x⟩ = .ok Z) (hρ : 0 < ρ) (hnonneg : 0 ≤ D) :
    ∃ flux update s₁ s₂, transportFlux c v pot j d z = .ok flux ∧
      concentrationUpdate c pot j d z = .ok update ∧
      flux.sweepInterior s b = .ok s₁ ∧ update.sweepInterior s₁ b = .ok s₂ ∧
      (∀ x, domain.isInterior x → s₂.get? c.name 0 x =
        some (C x + (stencil.staggered.map fun direction => exchangeRate stencil D direction.offset *
          ((C (x + direction.offset) - C x) + (C (x + -direction.offset) - C x))).sum)) ∧
      (∀ (t : Store ℝ domain) (C' : Cell → ℝ) (F : ℕ → Cell → ℝ), c.HasValues t.get? C' →
        (∀ k < stencil.staggered.length, ∀ x, t.get? j.name k x = some (F k x)) →
        ∀ x, update.evalAt t.get? b x = .ok [(c.centerAccess,
          C' x + (stencil.staggered.zipIdx.map fun p =>
            FiniteVolume.faceWeight stencil * F p.2 (x + -p.1.offset) -
              FiniteVolume.faceWeight stencil * F p.2 x).sum)]) ∧
      ∀ direction ∈ stencil.staggered, ∃ a, 0 ≤ a ∧
        (∀ fields x, c.HasValues fields (fun _ => ρ) →
          (noiseAmplitude c direction.offset d stencil.noiseFactor).eval ⟨fields, b, x⟩ = .ok a) ∧
        (FiniteVolume.faceWeight stencil * a) ^ 2 = FiniteVolume.faceWeight stencil ^ 2 *
          (2 * dampedDensity ρ * exchangeRate stencil D direction.offset) ∧
        ((FiniteVolume.faceWeight stencil * a) ^ 2 =
            2 * dampedDensity ρ * exchangeRate stencil D direction.offset ↔
          stencil = .d3q7 ∨ D = 0) := by
  obtain ⟨flux, update, s₁, s₂, hflux, hupdate, hs₁, hs₂, hvalue⟩ :=
    exists_diffusion_step hj hcomponents hname hC hpot hv hd hz hD hZ
  refine ⟨flux, update, s₁, s₂, hflux, hupdate, hs₁, hs₂, hvalue, ?_, ?_⟩
  · intro t C' F hC' hF x
    have hweighted := FiniteVolume.evalAt_update
      (v := ⟨c, diffusionFlux c.center pot.center d z⟩) hC' hF hj hupdate b x
    rw [FiniteVolume.updated, FiniteVolume.div_faceArea, ← List.sum_map_mul_right] at hweighted
    simp only [mul_comm _ (FiniteVolume.faceWeight stencil), mul_sub] at hweighted
    exact hweighted
  · intro direction hdirection
    refine ⟨uniformAmplitude stencil ρ D direction.offset, uniformAmplitude_nonneg _ _ _ _, ?_, ?_,
      weighted_sq_eq_iff hdirection hρ hnonneg⟩
    · intro fields x huniform
      have hd' : d.eval ⟨fields, b, x⟩ = .ok D := (eval_congr_fields hd fields s.get? b x).trans (hD x)
      exact eval_noiseAmplitude_uniform hρ hnonneg huniform hd' direction.offset
    · rw [mul_pow, uniformAmplitude_sq hdirection hρ hnonneg]

theorem fluctuation_dissipation_edges :
    let c : Field := .scalar "c"
    let j : Field := .flux "j" .d3q19
    let s : Store ℝ .narrow :=
      ((Store.empty.fillWith "c" 0 fun x => (x.z : ℝ)).fill "phi" 0 3).fillVelocity "v" ⟨0, 0, 0⟩
    let b : Bindings ℝ := (Bindings.empty.insert "D" 2).insert "z" 1
    let C : Cell → ℝ := fun x => (Domain.narrow.foldCell x).z
    let w : ℝ := FiniteVolume.faceWeight .d3q19
    ∃ flux update s₁ s₂,
      transportFlux c (.vector "v" 3) (.scalar "phi") j (.real "D") (.real "z") = .ok flux ∧
      concentrationUpdate c (.scalar "phi") j (.real "D") (.real "z") = .ok update ∧
      flux.sweepInterior s b = .ok s₁ ∧ update.sweepInterior s₁ b = .ok s₂ ∧
      (∀ x, Domain.narrow.isInterior x → s₂.get? "c" 0 x =
        some (C x + (Stencil.d3q19.staggered.map fun direction =>
          exchangeRate .d3q19 2 direction.offset *
            ((C (x + direction.offset) - C x) + (C (x + -direction.offset) - C x))).sum)) ∧
      (∀ (t : Store ℝ .narrow) (C' : Cell → ℝ) (F : ℕ → Cell → ℝ), c.HasValues t.get? C' →
        (∀ k < Stencil.d3q19.staggered.length, ∀ x, t.get? "j" k x = some (F k x)) →
        ∀ x, update.evalAt t.get? b x = .ok [(c.centerAccess,
          C' x + (Stencil.d3q19.staggered.zipIdx.map fun p =>
            w * F p.2 (x + -p.1.offset) - w * F p.2 x).sum)]) ∧
      ∀ direction ∈ Stencil.d3q19.staggered, ∃ a, 0 ≤ a ∧
        (∀ fields x, c.HasValues fields (fun _ => 1 / 2) →
          (noiseAmplitude c direction.offset (.real "D") Stencil.d3q19.noiseFactor).eval
            ⟨fields, b, x⟩ = .ok a) ∧
        (w * a) ^ 2 =
          w ^ 2 * (2 * dampedDensity (1 / 2) * exchangeRate .d3q19 2 direction.offset) ∧
        ((w * a) ^ 2 = 2 * dampedDensity (1 / 2) * exchangeRate .d3q19 2 direction.offset ↔
          Stencil.d3q19 = .d3q7 ∨ (2 : ℝ) = 0) := by
  intro c j s b C w
  have hC : c.HasValues s.get? C := by
    intro x
    simp [c, s, C, Field.scalar, Store.fillVelocity, Axis.all, Store.fill, Store.get?_fillWith]
  have hpot : (Field.scalar "phi").HasValues s.get? fun _ => 3 := by
    intro x
    simp [s, Field.scalar, Store.fillVelocity, Axis.all, Store.fill, Store.get?_fillWith]
  have hv (axis : Axis) (y : Cell) : s.get? "v" axis.index y = some 0 := by
    cases axis <;>
      simp [s, Store.fillVelocity, Axis.all, Axis.index, PerAxis.get, Store.fill, Store.get?_fillWith]
  exact fluctuation_dissipation s b c (.vector "v" 3) (.scalar "phi") j (.real "D") (.real "z") rfl
    (by decide) (by decide) hC hpot hv rfl rfl (fun x => rfl) (fun x => rfl) (by norm_num) zero_le_two

/-- With edges, at concentration one and with diffusion, the noise through the face towards `-x` is too
weak. -/
theorem edges_out_of_balance :
    ∃ a : ℝ, (noiseAmplitude (.scalar "c") ⟨-1, 0, 0⟩ (.num 1) Stencil.d3q19.noiseFactor).eval
        ⟨fun _ _ _ => some 1, ∅, 0⟩ = .ok a ∧
      (FiniteVolume.faceWeight .d3q19 * a) ^ 2 ≠
        2 * dampedDensity 1 * exchangeRate .d3q19 1 ⟨-1, 0, 0⟩ := by
  refine ⟨uniformAmplitude .d3q19 1 1 ⟨-1, 0, 0⟩,
    eval_noiseAmplitude_uniform one_pos zero_le_one (fun _ => rfl) rfl _, fun h => ?_⟩
  have hdirection : (⟨"W", ⟨-1, 0, 0⟩⟩ : Direction) ∈ Stencil.d3q19.staggered := by decide
  rcases (weighted_sq_eq_iff hdirection one_pos zero_le_one).1 h with hstencil | hnone
  · cases hstencil
  · exact one_ne_zero hnone

end Electrokinetics
