/-
**The nodes of the values that kernels write.**

Fluxes, noise, balances and reactions are built from reads of a few fields by the building functions,
so a property of nodes that these keep holds of a kernel's value as soon as it holds of its reads and
parameters.  Bringing a continuum flux onto a face replaces each read by two reads and each derivative
by a difference; along the axes of the face these look at the two cells of the face and nowhere else.

Main definitions:

* `Expr.OnFace` — what a node becomes on a face has a property.

Main results:

* `all_transportValue`, `all_noiseAmplitude`, `all_faceBalance`, `all_reactionSpeed`, … — the values of the
  kernels.
-/

import Electrokinetics.Proofs.Expr.Nodes
import Electrokinetics.Proofs.Transport.Faces
import Electrokinetics.Transport.Reaction

set_option relaxedAutoImplicit false
set_option autoImplicit false

namespace Electrokinetics

variable {K : Type} [Scalar K] {q : Expr K → Prop}

/-! ### Faces -/

theorem Field.shift_center (f : Field) (n : Offset) :
    (f.center : Expr K).shift n = f.neighbor n := by
  have hzero : (0 : Offset) + n = n := by
    ext axis
    simp
  change Expr.access ((f.location 0 0).shift n) = .access (f.location 0 n)
  rw [Access.shift, Field.location, hzero]
  rfl

namespace Expr

/-- What a node becomes on the face towards `n` has a property at all its nodes. -/
def OnFace (q : Expr K → Prop) (n : Offset) : Expr K → Prop
  | .access a => q (.access (a.shift n)) ∧ q (.access a)
  | .deriv arg axis => (arg.faceDerivative axis n).All q
  | .random _ => ∀ key, q (.random key)
  | t => q t

theorem combines_onFace (hq : Combines q) (n : Offset) : Combines (OnFace q n) where
  num := hq.num
  sum := hq.sum
  prod := hq.prod
  power := hq.power
  select := hq.select
  call := hq.call
  call_congr := hq.call_congr
  modulo_congr := hq.modulo_congr

variable (hq : Combines q)

include hq

theorem All.onFace {e : Expr K} {n : Offset} (h : e.All (OnFace q n)) : (e.onFace n).All q := by
  refine All.transform hq (h.mono fun t ht => ?_)
  cases t with
  | access a =>
      obtain ⟨hshifted, hhere⟩ := ht
      exact All.mul_num hq (All.add_pair hq (all_access.2 hshifted) (all_access.2 hhere)) _
  | _ => exact ht

/-- Along an axis of the face a derivative is the difference across the face. -/
theorem All.faceDerivative {e : Expr K} {axis : Axis} {n : Offset} (haxis : n.get axis ≠ 0)
    (hshifted : (e.shift n).All q) (hhere : e.All q) : (e.faceDerivative axis n).All q := by
  rw [Expr.faceDerivative, if_neg haxis]
  exact All.div_scalar hq (All.sub hq hshifted hhere) _

/-- Along any axis it is put together from the expression with its reads moved. -/
theorem All.faceDerivative_of_shifts {e : Expr K} (hshifted : ∀ m, (e.shift m).All q)
    (hhere : e.All q) (axis : Axis) (n : Offset) : (e.faceDerivative axis n).All q := by
  by_cases haxis : n.get axis = 0
  · rw [Expr.faceDerivative, if_pos haxis]
    have hfurther := All.sub hq (hshifted (n + axis.unit)) (hshifted (n + -axis.unit))
    have hnearer := All.add_pair hq hfurther (hshifted axis.unit)
    exact All.div_scalar hq (All.sub hq hnearer (hshifted (-axis.unit))) _
  · exact All.faceDerivative hq haxis (hshifted n) hhere

end Expr

open Electrokinetics.Expr

variable (hq : Combines q)

include hq

/-! ### Fluxes -/

theorem all_diffusionFlux {c pot d z : Expr K} {axis : Axis} (hc : c.All q)
    (hderiv : q (.deriv c axis)) (hpot : pot.All q) (hpotderiv : q (.deriv pot axis))
    (hd : d.All q) (hz : z.All q) : ((diffusionFlux c pot d z).get axis).All q := by
  have hgradient {e : Expr K} (he : e.All q) (hderiv : q (.deriv e axis)) :
      ((gradient e).get axis).All q := by
    rw [gradient, PerAxis.get_ofFn]
    exact All.diff hq hderiv he
  have hmigration : (d * z * c).All q := All.mul_pair hq (All.mul_pair hq hd hz) hc
  rw [diffusionFlux, PerAxis.get_ofFn]
  exact All.sub hq (All.neg hq (All.mul_pair hq hd (hgradient hc hderiv)))
    (All.mul_pair hq hmigration (hgradient hpot hpotderiv))

theorem FiniteVolume.all_faceValue {v : FiniteVolume K} {n : Offset}
    (h : ∀ axis, n.get axis ≠ 0 → (v.flux.get axis).All (OnFace q n)) : (v.faceValue n).All q := by
  have hface := combines_onFace hq n
  have hprojected : (v.projected n).All (OnFace q n) := by
    refine All.add hface fun t ht => ?_
    obtain ⟨axis, haxis, rfl⟩ := List.mem_map.1 ht
    exact All.num_mul hface (h axis (Offset.mem_nonzeroAxes.1 haxis)) _
  exact All.div_scalar hq (All.onFace hq hprojected) _

theorem all_motionAlong {velocity : PerAxis (Expr K)} (h : ∀ axis, (velocity.get axis).All q)
    (n : Offset) (sense : K) (axis : Axis) : (motionAlong velocity n sense axis).All q :=
  All.num_mul hq (h axis) _

theorem all_displacedPart {velocity : PerAxis (Expr K)} (h : ∀ axis, (velocity.get axis).All q)
    (n : Offset) (sense : K) : (displacedPart velocity n sense).All q := by
  have hnum (a : K) : (num a).All q := all_num.2 (hq.num a)
  have hmotion := all_motionAlong hq h n sense
  refine All.piecewise hq (Cond.All.and fun c hc => ?_) (All.mul hq fun t ht => ?_) (hnum _)
  · obtain ⟨axis, -, rfl⟩ := List.mem_map.1 hc
    exact Cond.All.gt (hmotion axis) (hnum _)
  · obtain ⟨axis, -, rfl⟩ := List.mem_map.1 ht
    split
    · exact All.sub hq (hnum _) (All.abs hq (h axis))
    · exact hmotion axis

theorem all_advectiveValue {v c : Field} {n : Offset} (hc : q c.center) (hcn : q (c.neighbor n))
    (hv : ∀ axis : Axis, q (.access (v.location axis.index 0)) ∧ q (.access (v.location axis.index n))) :
    (advectiveValue v c n).All q := by
  have hvelocity (m : Offset) (hm : ∀ axis : Axis, q (.access (v.location axis.index m))) (axis : Axis) :
      ((velocityAt v m : PerAxis (Expr K)).get axis).All q := by
    rw [velocityAt, PerAxis.get_ofFn]
    exact all_access.2 (hm axis)
  have hhere := all_displacedPart hq (hvelocity 0 fun axis => (hv axis).1) n Scalar.one
  have hthere := all_displacedPart hq (hvelocity n fun axis => (hv axis).2) n Scalar.negOne
  exact All.sub hq (All.mul_pair hq hhere (all_access.2 hc))
    (All.mul_pair hq hthere (all_access.2 hcn))

theorem all_transportValue {c v pot : Field} {d z : Expr K} {n : Offset} (hc : q c.center)
    (hcn : q (c.neighbor n)) (hpot : q pot.center) (hpotn : q (pot.neighbor n))
    (hv : ∀ axis : Axis, q (.access (v.location axis.index 0)) ∧ q (.access (v.location axis.index n)))
    (hd : d.All (OnFace q n)) (hz : z.All (OnFace q n)) :
    (transportValue c v pot d z n).All q := by
  -- A read and its derivative both come to the two cells of the face.
  have hface {f : Field} (hf : q f.center) (hfn : q (f.neighbor n)) {axis : Axis}
      (haxis : n.get axis ≠ 0) :
      (f.center : Expr K).All (OnFace q n) ∧ OnFace q n (.deriv f.center axis) := by
    have hshifted : ((f.center : Expr K).shift n).All q := by
      rw [f.shift_center]
      exact all_access.2 hfn
    exact ⟨all_access.2 ⟨hshifted.self, hf⟩,
      All.faceDerivative hq haxis hshifted (all_access.2 hf)⟩
  refine All.add_pair hq (all_advectiveValue hq hc hcn hv) ?_
  refine FiniteVolume.all_faceValue hq fun axis haxis => ?_
  obtain ⟨hconcentration, hderiv⟩ := hface hc hcn haxis
  obtain ⟨hpotential, hpotderiv⟩ := hface hpot hpotn haxis
  exact all_diffusionFlux (combines_onFace hq n) hconcentration hderiv hpotential hpotderiv hd hz

/-! ### Noise -/

theorem all_noiseAmplitude {c : Field} {n : Offset} {d : Expr K} (hc : q c.center)
    (hcn : q (c.neighbor n)) (hd : d.All q) (factor : K) : (noiseAmplitude c n d factor).All q := by
  have hnum (a : K) : (num a).All q := all_num.2 (hq.num a)
  have hhere : (c.center : Expr K).All q := all_access.2 hc
  have hthere : (c.neighbor n : Expr K).All q := all_access.2 hcn
  have hdamping : (densityDamping c n : Expr K).All q :=
    All.max hq (All.mul_pair hq (All.min hq hthere (hnum _)) (All.min hq hhere (hnum _))) (hnum _)
  have hdensity : (faceDensity c n : Expr K).All q :=
    All.mul_pair hq (All.mul_num hq (All.add_pair hq hthere hhere) _) hdamping
  have hproduct := All.mul_pair hq (All.num_mul hq hdensity Scalar.two) hd
  exact All.mul_num hq (All.sqrt hq (All.max hq hproduct (hnum _))) _

theorem all_rescaledNoise {k : Nat} (h : q (.real (noiseName k))) : (rescaledNoise k).All q :=
  All.mul_num hq (All.sub hq (all_symbol.2 h) (all_num.2 (hq.num _))) _

/-! ### Updates of one cell -/

theorem all_faceBalance {j : Field} {stencil : Stencil}
    (h : ∀ p ∈ stencil.staggered.zipIdx,
      q (.access (j.location p.2 (-p.1.offset))) ∧ q (.access (j.location p.2 0))) :
    ∀ e ∈ (FiniteVolume.faceBalance j stencil : List (Expr K)), e.All q := by
  intro e he
  obtain ⟨p, hp, rfl⟩ := List.mem_map.1 he
  obtain ⟨hback, hhere⟩ := h p hp
  exact All.sub hq (all_access.2 hback) (all_access.2 hhere)

theorem all_reactionSpeed {concentrations : List Field} {rate : Expr K} {orders : List (Expr K)}
    (hcenters : ∀ c ∈ concentrations, q c.center) (hrate : rate.All q)
    (horders : ∀ e ∈ orders, e.All q) : (reactionSpeed concentrations rate orders).All q := by
  refine All.mul hq (List.forall_mem_cons.2 ⟨hrate, ?_⟩)
  induction concentrations generalizing orders with
  | nil => exact fun e he => absurd he List.not_mem_nil
  | cons c cs ih =>
      cases orders with
      | nil => exact fun e he => absurd he List.not_mem_nil
      | cons order rest =>
          obtain ⟨hc, hcs⟩ := List.forall_mem_cons.1 hcenters
          obtain ⟨horder, hrest⟩ := List.forall_mem_cons.1 horders
          exact List.forall_mem_cons.2 ⟨All.pow hq (all_access.2 hc) horder, ih hcs hrest⟩

end Electrokinetics
