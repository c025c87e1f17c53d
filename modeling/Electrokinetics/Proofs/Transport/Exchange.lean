/-
**Diffusion as an exchange between neighbours.**

In a fluid at rest and in a constant potential the flux through a face is proportional to the difference
of the two concentrations.  A step then takes from every cell and gives to its neighbour a fraction of
this difference, at a rate that depends on the direction only.  The rates of a stencil are isotropic:
weighted by the products of the components of their directions, they add up to the diffusion coefficient
for an axis with itself and to nothing for two axes.

Main definitions:

* `exchangeRate` — the coefficient of a neighbour in a step of diffusion;
* `diffusiveFace` — the flux through a face;
* `exchanged` — the value of a cell after a step.

Main results:

* `sum_exchangeRate` — the rates of a stencil are isotropic;
* `eval_transportValue_at_rest` — the flux, as the kernel computes it;
* `stepped_diffusiveFace` — the value of a cell after a step;
* `exists_diffusion_step` — both sweeps of a step.
-/

import Electrokinetics.Proofs.Grid.Moments
import Electrokinetics.Proofs.Transport.Boxes

set_option relaxedAutoImplicit false
set_option autoImplicit false

namespace Electrokinetics

open Electrokinetics.Expr

/-! ### Rates -/

/-- The coefficient with which a step of diffusion adds the neighbour at an offset to a cell. -/
noncomputable def exchangeRate (stencil : Stencil) (D : ℝ) (n : Offset) : ℝ :=
  D / √n.normSq * FiniteVolume.faceWeight stencil

/-- The rates of a stencil are isotropic. -/
theorem sum_exchangeRate (stencil : Stencil) (D : ℝ) (i j : Axis) :
    (stencil.staggered.map fun direction => exchangeRate stencil D direction.offset *
      (direction.offset.get i * direction.offset.get j)).sum = if i = j then D else 0 := by
  have hrate (n : Offset) : exchangeRate stencil D n * (n.get i * n.get j) =
      D * FiniteVolume.faceWeight stencil * Stencil.productOverLength i j n := by
    rw [exchangeRate, Stencil.productOverLength]
    ring
  simp only [hrate]
  rw [List.sum_map_mul_left, ← Stencil.moment, stencil.moment_eq]
  split
  · rw [mul_assoc, FiniteVolume.faceWeight_mul_faceArea, mul_one]
  · rw [mul_zero]

/-! ### A step of diffusion -/

/-- A box that does not move sends nothing. -/
theorem landed_at_rest {n : Offset} (hn : n.nonzeroAxes ≠ []) :
    landed n (PerAxis.replicate (0 : ℝ)) = 0 := by
  obtain ⟨axis, haxis⟩ := List.exists_mem_of_ne_nil _ hn
  have hshare : share (n.get axis) ((PerAxis.replicate (0 : ℝ)).get axis) = 0 := by
    rw [share, if_neg (Offset.mem_nonzeroAxes.1 haxis), PerAxis.get_replicate, mul_zero, max_self]
  exact List.prod_eq_zero (List.mem_map.2 ⟨axis, Axis.mem_all axis, hshare⟩)

section Step

variable {domain : Domain} {s : Store ℝ domain} {b : Bindings ℝ} {env : Env ℝ} {stencil : Stencil}
  {c v pot j : Field} {d z : Expr ℝ} {C : Cell → ℝ} {D Z potential : ℝ}

/-- The flux of diffusion through the face towards `n`. -/
noncomputable def diffusiveFace (D : ℝ) (C : Cell → ℝ) (n : Offset) (x : Cell) : ℝ :=
  -(D / √n.normSq) * (C (x + n) - C x)

/-- The flux through a face, without velocity and in a constant potential. -/
theorem eval_transportValue_at_rest {n : Offset} (hn : n.nonzeroAxes ≠ [])
    (hC : c.HasValues env.fields C) (hpot : pot.HasValues env.fields fun _ => potential)
    (hv : ∀ axis : Axis, ∀ y, env.fields v.name axis.index y = some 0) (hd : d.hasAccess = false)
    (hz : z.hasAccess = false) (hD : d.eval env = .ok D) (hZ : z.eval env = .ok Z) :
    (transportValue c v pot d z n).eval env = .ok (diffusiveFace D C n env.cell) := by
  have hneg : (-n).nonzeroAxes ≠ [] := by
    have haxes : (-n).nonzeroAxes = n.nonzeroAxes := by simp [Offset.nonzeroAxes]
    rwa [haxes]
  have hadvection : (advectiveValue v c n).eval env = .ok 0 := by
    have hrest (axis : Axis) (y : Cell) : env.fields v.name axis.index y =
        some ((PerAxis.replicate (0 : ℝ)).get axis) := by
      rw [PerAxis.get_replicate, hv]
    rw [eval_advectiveValue hC hrest, advectiveFace, landed_at_rest hn, landed_at_rest hneg,
      mul_zero, mul_zero, sub_zero]
  have hvalue := eval_transportValue hn hC hpot (.of_eval (keepsAt_faceNode hd _ _) hD)
    (.of_eval (keepsAt_faceNode hz _ _) hZ) hadvection
  rwa [drivingForce, sub_self, mul_zero, add_zero, add_zero] at hvalue

/-- What the kernel of the flux writes, without velocity and in a constant potential. -/
theorem evalAt_transportFlux_at_rest {fields : FieldValues ℝ} {x : Cell} {flux : Collection ℝ}
    (hj : j.kind = .flux stencil) (hcomponents : Axis.z.index < v.components)
    (hflux : transportFlux c v pot j d z = .ok flux) (hC : c.HasValues fields C)
    (hpot : pot.HasValues fields fun _ => potential)
    (hv : ∀ axis : Axis, ∀ y, fields v.name axis.index y = some 0) (hd : d.hasAccess = false)
    (hz : z.hasAccess = false) (hD : d.eval ⟨fields, b, x⟩ = .ok D)
    (hZ : z.eval ⟨fields, b, x⟩ = .ok Z) :
    flux.evalAt fields b x = .ok (stencil.staggered.zipIdx.map fun p =>
      (j.location p.2 0, diffusiveFace D C p.1.offset x)) := by
  obtain rfl := Except.ok.inj ((transportFlux_eq hj hcomponents).symm.trans hflux)
  refine Collection.evalAt_ofFaces (fun _ direction => diffusiveFace D C direction.offset x)
    fun p hp => ?_
  have hdirection : p.1 ∈ stencil.staggered := List.fst_mem_of_mem_zipIdx hp
  exact eval_transportValue_at_rest (Stencil.nonzeroAxes_ne_nil hdirection) hC hpot hv hd hz hD hZ

/-- What a step of diffusion leaves in a cell: what was there, and what comes from its neighbours. -/
noncomputable def exchanged (stencil : Stencil) (D : ℝ) (C : Cell → ℝ) (x : Cell) : ℝ :=
  C x + (stencil.staggered.map fun direction => exchangeRate stencil D direction.offset *
    ((C (x + direction.offset) - C x) + (C (x + -direction.offset) - C x))).sum

theorem stepped_diffusiveFace (stencil : Stencil) (D : ℝ) (C : Cell → ℝ) (x : Cell) :
    FiniteVolume.stepped stencil C (diffusiveFace D C) x = exchanged stencil D C x := by
  have hbalance (n : Offset) :
      (diffusiveFace D C n (x + -n) - diffusiveFace D C n x) * FiniteVolume.faceWeight stencil =
        exchangeRate stencil D n * ((C (x + n) - C x) + (C (x + -n) - C x)) := by
    rw [exchangeRate, diffusiveFace, diffusiveFace, Cell.add_neg_add]
    ring
  rw [FiniteVolume.stepped, FiniteVolume.div_faceArea, ← List.sum_map_mul_right, exchanged]
  simp only [hbalance]

/-- A step of diffusion exchanges a cell with its neighbours. -/
theorem exists_diffusion_step (hj : j.kind = .flux stencil) (hcomponents : Axis.z.index < v.components)
    (hname : c.name ≠ j.name) (hC : c.HasValues s.get? C)
    (hpot : pot.HasValues s.get? fun _ => potential)
    (hv : ∀ axis : Axis, ∀ y, s.get? v.name axis.index y = some 0) (hd : d.hasAccess = false)
    (hz : z.hasAccess = false) (hD : ∀ x, d.eval ⟨s.get?, b, x⟩ = .ok D)
    (hZ : ∀ x, z.eval ⟨s.get?, b, x⟩ = .ok Z) :
    ∃ flux update s₁ s₂, transportFlux c v pot j d z = .ok flux ∧
      concentrationUpdate c pot j d z = .ok update ∧
      flux.sweepInterior s b = .ok s₁ ∧ update.sweepInterior s₁ b = .ok s₂ ∧
      ∀ x, domain.isInterior x → s₂.get? c.name 0 x = some (exchanged stencil D C x) := by
  have hperiodic (n : Offset) (x : Cell) :
      diffusiveFace D C n (domain.foldCell x) = diffusiveFace D C n x := by
    have hhere := Store.periodic_of_get? hC x 0
    rw [Cell.add_zero, Cell.add_zero] at hhere
    rw [diffusiveFace, diffusiveFace, Store.periodic_of_get? hC x n, hhere]
  have hface : ∀ direction ∈ stencil.staggered, ∀ x,
      (transportValue c v pot d z direction.offset).eval ⟨s.get?, b, x⟩ =
        .ok (diffusiveFace D C direction.offset x) := fun direction hdirection x =>
    eval_transportValue_at_rest (Stencil.nonzeroAxes_ne_nil hdirection) hC hpot hv hd hz (hD x) (hZ x)
  obtain ⟨update, s₁, s₂, hupdate, hs₁, hs₂, hvalue⟩ := FiniteVolume.exists_step
    (v := ⟨c, diffusionFlux c.center pot.center d z⟩) hj hname hC hface hperiodic
  refine ⟨_, update, s₁, s₂, transportFlux_eq hj hcomponents, hupdate, hs₁, hs₂, fun x _ => ?_⟩
  rw [hvalue, stepped_diffusiveFace]

end Step

end Electrokinetics
