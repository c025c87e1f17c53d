/-
**Mechanisms that are switched off.**

A flux is built for diffusion, migration, advection and noise at once.  A mechanism with the
coefficient zero, or migration in a constant potential, is built as well and then collapses, so that
nothing of it is left in the generated assignments: not a term, and not a product with zero either.
What is left is the same tree that is built without the mechanism.

Main results:

* `transportFlux_zero` — without diffusion the transport of a species is advection;
* `exists_addNoise_zero` — without diffusion there is no noise on a flux;
* `diffusionFlux_of_constant` — without a field there is no migration;
* `switchedOff_leaves_nothing` — all of these together.
-/

import Electrokinetics.Proofs.Expr.Grouping
import Electrokinetics.Proofs.Transport.Checks

set_option relaxedAutoImplicit false
set_option autoImplicit false

namespace Electrokinetics

open Electrokinetics.Expr

variable {K : Type} [OrderedField K] [Scalar K] [ExactScalar K]

/-! ### Transport without diffusion -/

theorem diffusionFlux_zero (c pot z : Expr K) :
    diffusionFlux c pot zero z = PerAxis.ofFn fun _ => zero := by
  have hsub : (zero : Expr K) - zero = zero := by
    change zero + -zero = zero
    rw [Expr.neg_zero_eq]
    exact add_zero_eq (canonical_num _)
  simp only [diffusionFlux, Expr.zero_mul, Expr.neg_zero_eq, hsub]

theorem FiniteVolume.faceValue_zero (c : Field) (n : Offset) :
    (⟨c, PerAxis.ofFn fun _ => zero⟩ : FiniteVolume K).faceValue n = zero := by
  have hprojected : (⟨c, PerAxis.ofFn fun _ => zero⟩ : FiniteVolume K).projected n = zero := by
    refine add_zeros fun e he => ?_
    obtain ⟨axis, -, rfl⟩ := List.mem_map.1 he
    rw [PerAxis.get_ofFn]
    exact mul_zero_eq _
  rw [faceValue, hprojected]
  exact Expr.zero_mul _

section Canonical

omit [OrderedField K] [ExactScalar K]

theorem canonical_displacedPart {velocity : PerAxis (Expr K)}
    (h : ∀ axis, (velocity.get axis).Canonical) (n : Offset) (sense : K) :
    (displacedPart velocity n sense).Canonical := by
  have hmotion (axis : Axis) : (motionAlong velocity n sense axis).Canonical :=
    canonical_mul_pair (canonical_num _) (h axis)
  refine canonical_piecewise (Cond.canonical_and fun c hc => ?_) (canonical_mul fun e he => ?_)
    (canonical_num _)
  · obtain ⟨axis, -, rfl⟩ := List.mem_map.1 hc
    exact Cond.canonical_gt (hmotion axis) (canonical_num _)
  · obtain ⟨axis, -, rfl⟩ := List.mem_map.1 he
    split
    · exact canonical_sub (canonical_num _)
        (canonical_apply .abs (List.forall_mem_singleton.2 (h axis)))
    · exact hmotion axis

theorem canonical_advectiveValue (v c : Field) (n : Offset) :
    (advectiveValue (K := K) v c n).Canonical := by
  have hvelocity (m : Offset) (axis : Axis) :
      ((velocityAt v m : PerAxis (Expr K)).get axis).Canonical := by
    rw [velocityAt, PerAxis.get_ofFn]
    exact all_access.2 trivial
  exact canonical_sub
    (canonical_mul_pair (canonical_displacedPart (hvelocity 0) n _) (all_access.2 trivial))
    (canonical_mul_pair (canonical_displacedPart (hvelocity n) n _) (all_access.2 trivial))

end Canonical

/-- Without diffusion only the advective value is left on a face. -/
theorem transportValue_zero (c v pot : Field) (z : Expr K) (n : Offset) :
    transportValue c v pot zero z n = advectiveValue v c n := by
  rw [transportValue, diffusionFlux_zero, FiniteVolume.faceValue_zero,
    add_zero_eq (canonical_advectiveValue v c n)]

/-- Without diffusion the transport flux is the advective flux, faults of the fields included. -/
theorem transportFlux_zero (c v pot j : Field) (z : Expr K) :
    transportFlux c v pot j zero z = advectiveFlux j v c := by
  by_cases hflux : ∃ stencil, j.kind = .flux stencil
  · obtain ⟨stencil, hj⟩ := hflux
    by_cases hv : Axis.z.index < v.components
    · rw [transportFlux_eq hj hv, advectiveFlux_eq hj hv]
      simp only [transportValue_zero]
    · rw [transportFlux, FiniteVolume.faceFlux_eq _ hj, advectiveFlux,
        (j.stencil_eq_ok_iff stencil).2 hj, Field.access, if_neg hv]
      rfl
  · have hstencil : j.stencil = .error (.notStaggered j.name) :=
      j.stencil_eq_error_iff.2 ⟨not_exists.1 hflux, rfl⟩
    rw [transportFlux, FiniteVolume.faceFlux, advectiveFlux, hstencil]
    rfl

/-! ### Noise without diffusion -/

section Noise

variable (hsqrt : Scalar.sqrt (Scalar.zero : K) = Scalar.zero)

include hsqrt

theorem noiseAmplitude_zero (c : Field) (n : Offset) (factor : K) :
    noiseAmplitude c n zero factor = zero := by
  have hmax : Expr.max (zero : Expr K) zero = zero := by
    change num (Scalar.max Scalar.zero Scalar.zero) = zero
    rw [ExactScalar.max_eq, max_self]
    rfl
  have hroot : Expr.sqrt (zero : Expr K) = zero := by
    have hle : Scalar.le (Scalar.zero : K) Scalar.zero = true := by
      rw [ExactScalar.le_eq, decide_eq_true (le_refl _)]
    have hfold : ([(zero : Expr K)].mapM asNum?).bind (foldCall? .sqrt) = some Scalar.zero := by
      change foldCall? .sqrt [Scalar.zero] = _
      rw [foldCall?, hle, if_pos rfl, hsqrt]
    rw [Expr.sqrt, Expr.apply, hfold]
    rfl
  rw [noiseAmplitude, mul_zero_eq, hmax, hroot, Expr.zero_mul]

theorem noisyValues_zero (c : Field) (factor : K) {directions : List Direction}
    {main : List (Assignment K)} (hmain : ∀ a ∈ main, a.value.Canonical)
    (hlength : main.length = directions.length) :
    noisyValues c zero factor directions main = main := by
  refine List.ext_getElem (by simp [noisyValues, hlength]) fun k hk hk' => ?_
  have hvalue : main[k].value.Canonical := hmain _ (List.getElem_mem hk')
  simp only [noisyValues, List.getElem_zipWith, noiseAmplitude_zero hsqrt, Expr.zero_mul,
    add_zero_eq hvalue]

/-- Whether a flux can receive noise does not depend on the amplitude, and noise of amplitude zero
leaves every value as it is. -/
theorem exists_addNoise_zero {flux noisy : Collection K} {c j : Field} {d : Expr K} {factor : K}
    (hmain : ∀ a ∈ flux.main, a.value.Canonical) (h : addNoise flux c j d factor = .ok noisy)
    (c' : Field) (factor' : K) :
    ∃ plain, addNoise flux c' j zero factor' = .ok plain ∧ plain.main = flux.main := by
  obtain ⟨outcome, houtcome⟩ := exists_noiseOutcome flux c j d factor
  obtain rfl : outcome = .ok noisy := houtcome.addNoise_eq.symm.trans h
  cases houtcome with
  | noise hkind htargets hnames hnoisy hvalues hsubexpressions =>
      let plain : Collection K := ⟨flux.main, noisy.subexpressions, flux.nodup_targets,
        noisy.nodup_names⟩
      have hplain : plain.main = noisyValues c' zero factor' _ flux.main :=
        (noisyValues_zero hsqrt c' factor' hmain (length_main_of_faces htargets)).symm
      have hnoise : NoiseOutcome flux c' j zero factor' (.ok plain) :=
        .noise hkind htargets hnames rfl hplain hsubexpressions
      exact ⟨plain, hnoise.addNoise_eq, rfl⟩

end Noise

/-! ### Diffusion without migration -/

/-- A product with a derivative is not opened as a sum. -/
theorem Expr.isSum_neg_mul_deriv (d e : Expr K) (axis : Axis) :
    (-(d * deriv e axis)).isSum = false := by
  rw [← Bool.not_eq_true]
  intro hsum
  obtain ⟨t, ht, hsum⟩ := exists_of_isSum_mul hsum
  have hlone : (d * deriv e axis).symbolicFactors = [t] := by
    rw [← ht]
    exact (List.append_nil _).symm
  by_cases hc : ([d, deriv e axis].map coefficient).prod = 0
  · have hzero : d * deriv e axis = zero := mul_of_coefficient_eq_zero hc
    rw [hzero] at hlone
    cases hlone
  · -- The derivative is the last symbolic factor, so that it is the only one if there is one.
    have hfactors : [d, deriv e axis].flatMap symbolicFactors = d.symbolicFactors ++ [deriv e axis] :=
      rfl
    have hderiv (u : Expr K) (hu : d.symbolicFactors ++ [deriv e axis] = [u]) :
        u = deriv e axis := by
      have hmem : deriv e axis ∈ [u] := hu ▸ List.mem_append_right _ List.mem_cons_self
      exact (List.mem_singleton.1 hmem).symm
    obtain ⟨-, hparts⟩ := parts_mul (fun u hu => by rw [hderiv u (hfactors ▸ hu)]; rfl) hc
    rw [hderiv t (hfactors ▸ hparts.symm.trans hlone)] at hsum
    cases hsum

theorem Expr.isSum_neg_mul_diff (d e : Expr K) (axis : Axis) :
    (-(d * e.diff axis)).isSum = false := by
  rw [Expr.diff]
  split
  · exact Expr.isSum_neg_mul_deriv d e axis
  · rw [mul_zero_eq, Expr.neg_zero_eq]
    rfl

/-- In a potential that does not depend on the position only diffusion is left. -/
theorem diffusionFlux_of_constant (c d z : Expr K) {pot : Expr K} (haccess : pot.hasAccess = false)
    (hcounter : pot.hasCounter = false) :
    diffusionFlux c pot d z = PerAxis.ofFn fun axis => -(d * (gradient c).get axis) := by
  have hpot (axis : Axis) : pot.diff axis = zero := by
    rw [Expr.diff, haccess, hcounter]
    rfl
  have hsub {e : Expr K} (he : e.isSum = false) : e - zero = e := by
    change e + -zero = e
    rw [Expr.neg_zero_eq]
    exact (add_insert_zero [e] []).trans (add_singleton_of_isSum_eq_false he)
  simp only [diffusionFlux, gradient, PerAxis.get_ofFn, hpot, mul_zero_eq,
    hsub (Expr.isSum_neg_mul_diff d c _)]

/-! ### The whole flux -/

/-- **What is switched off leaves nothing**: with the diffusion coefficient zero, the flux by
diffusion, migration and advection is the advective flux in every potential, and the noise on a flux
leaves its assignments as they are; and in a potential that does not depend on the position the
continuum flux is that by diffusion alone. -/
theorem switchedOff_leaves_nothing (hsqrt : Scalar.sqrt (Scalar.zero : K) = Scalar.zero) :
    (∀ (c v pot j : Field) (z : Expr K),
      transportFlux c v pot j zero z = advectiveFlux j v c) ∧
    (∀ (flux noisy : Collection K) (c j : Field) (d : Expr K) (factor : K),
      (∀ a ∈ flux.main, a.value.Canonical) → addNoise flux c j d factor = .ok noisy →
        ∀ (c' : Field) (factor' : K), ∃ plain,
          addNoise flux c' j zero factor' = .ok plain ∧ plain.main = flux.main) ∧
    ∀ c pot d z : Expr K, pot.hasAccess = false → pot.hasCounter = false →
      diffusionFlux c pot d z = PerAxis.ofFn fun axis => -(d * (gradient c).get axis) :=
  ⟨transportFlux_zero, fun _ _ _ _ _ _ hmain h c' factor' =>
    exists_addNoise_zero hsqrt hmain h c' factor',
    fun c _ d z haccess hcounter => diffusionFlux_of_constant c d z haccess hcounter⟩

/-- Over the real numbers: a noisy flux whose faces hold their own former values, and transport in the
potential zero. -/
theorem switchedOff_leaves_nothing_real :
    let j := Field.flux "j" .d3q7
    let stored : Collection ℝ := .ofFaces j .d3q7 fun k _ => .access (j.location k 0)
    transportFlux (.scalar "c") (.vector "u" 3) (.scalar "pot") j (zero : Expr ℝ) (.real "z") =
      advectiveFlux j (.vector "u" 3) (.scalar "c") ∧
    (∃ plain, addNoise stored (.scalar "c") j zero 1 = .ok plain ∧ plain.main = stored.main) ∧
    diffusionFlux (Field.scalar "c").center zero (.real "D" : Expr ℝ) (.real "z") =
      PerAxis.ofFn fun axis =>
        -(.real "D" * (gradient (Field.scalar "c").center).get axis) := by
  intro j stored
  have hsqrt : Scalar.sqrt (Scalar.zero : ℝ) = Scalar.zero := by
    rw [Scalar.zero_eq]
    exact Real.sqrt_zero
  obtain ⟨htransport, hnoise, hdiffusion⟩ := switchedOff_leaves_nothing hsqrt
  have hstored : ∀ a ∈ stored.main, a.value.Canonical := by
    intro a ha
    rw [Collection.main_ofFaces] at ha
    obtain ⟨p, -, rfl⟩ := List.mem_map.1 ha
    exact all_access.2 trivial
  exact ⟨htransport _ _ _ _ _,
    hnoise _ _ _ _ _ _ hstored (addNoise_ofFaces (.scalar "c") rfl (.real "D") 1) _ _,
    hdiffusion _ _ _ _ rfl rfl⟩

end Electrokinetics
