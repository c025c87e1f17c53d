/-
**What the noise adds to a flux.**

The kernel with noise is the kernel without, with a random number drawn for each direction first and
the keys of all draws folded last.  In exact arithmetic none of this disturbs the flux: each face gets
what it gets without noise and its random flux on top, drawn in the channel of the direction at the
cell of the domain that the current cell stands for.

Main definitions:

* `FluxParameters` — the parameters of the flux kernels;
* `FluxParameters.foldCell` — a cell, folded by the extents.

Main results:

* `FluxParameters.BoundBy.eval_foldedDraw` — the number that is drawn for a face;
* `Config.eval_fluxValue`, `Config.eval_noisyValue` — the values on a face;
* `Config.evalAt_fluctuation` — the writes of the two kernels.
-/

import Electrokinetics.Proofs.Catalog.Footprint
import Electrokinetics.Proofs.Noise.Amplitude

set_option relaxedAutoImplicit false
set_option autoImplicit false

namespace Electrokinetics

open Electrokinetics.Expr

/-! ### Parameters -/

/-- The parameters of the flux kernels over the real numbers. -/
structure FluxParameters where
  /-- The diffusion coefficient. -/
  diffusion : ℝ
  /-- The valency. -/
  valency : ℝ
  /-- The extents of the domain. -/
  extent : Axis → ℕ
  /-- The number of the time step. -/
  timeStep : ℕ
  /-- The seed. -/
  seed : ℕ
  extent_pos : ∀ axis, 0 < extent axis
  extent_lt : ∀ axis, extent axis < extentBound
  timeStep_le : timeStep ≤ exactBound
  seed_le : seed ≤ exactBound

namespace FluxParameters

variable (q : FluxParameters)

/-- The cell of the domain that a cell stands for. -/
def foldCell (x : Cell) : Cell := PerAxis.ofFn fun axis => x.get axis % q.extent axis

/-- Bindings give the parameters their values. -/
structure BoundBy (b : Bindings ℝ) : Prop where
  diffusion : b.get? Parameter.diffusion.name = some q.diffusion
  valency : b.get? Parameter.valency.name = some q.valency
  extent : ∀ axis, b.get? (Parameter.extent axis).name = some (q.extent axis : ℝ)
  timeStep : b.get? Parameter.timeStep.name = some (q.timeStep : ℝ)
  seed : b.get? Parameter.seed.name = some (q.seed : ℝ)

end FluxParameters

theorem KeyPart.toNatural_natCast (part : KeyPart) {n : ℕ} (hn : n ≤ exactBound) :
    part.toNatural (n : ℝ) = .ok n := by
  have hcast : (n : ℝ) = Scalar.ofInt (n : ℤ) := (Int.cast_natCast n).symm
  rw [hcast, toNatural_ofInt part hn]

/-- The random number of a channel is the draw at the folded cell. -/
theorem FluxParameters.BoundBy.eval_foldedDraw {q : FluxParameters} {env : Env ℝ}
    (hq : q.BoundBy env.bindings) (hx : ∀ axis, (env.cell.get axis).natAbs ≤ exactBound) (k : ℕ) :
    (foldedDraw k).eval env = .ok (unitDraw (q.foldCell env.cell) k q.timeStep q.seed) := by
  refine eval_foldedDraw_of_key (fun axis => ?_)
    ⟨_, hq.timeStep, KeyPart.toNatural_natCast _ q.timeStep_le⟩
    ⟨_, hq.seed, KeyPart.toNatural_natCast _ q.seed_le⟩ k
  have hextent : env.bindings.get? (Parameter.extent axis).name =
      some (Scalar.ofInt (q.extent axis)) :=
    (hq.extent axis).trans (congrArg some (Int.cast_natCast _).symm)
  refine ⟨_, eval_foldedCounter (q.extent_pos axis) (q.extent_lt axis) hextent, ?_⟩
  rw [toInteger_foldedCounter (hx axis) (q.extent_pos axis) (q.extent_lt axis),
    FluxParameters.foldCell, PerAxis.get_ofFn]

/-! ### Values on a face -/

section Keys

variable {K : Type} [OrderedField K] [Scalar K] [ExactScalar K] {env : Env K}
  {A : Access → Prop} {S : Symbol → Prop}

/-- An expression without draws keeps its value where keys are changed. -/
theorem Expr.All.keeps_mapKeys {e : Expr K} (h : e.All (Reading A S))
    (f : RandomKey (Expr K) → RandomKey (Expr K)) : Keeps (e.eval env) ((e.mapKeys f).eval env) := by
  refine keeps_transform fun t ht => ?_
  have hreading := h t ht
  unfold KeepsAt
  cases t with
  | random key => exact absurd hreading id
  | _ => exact fun _ => Keeps.refl _

end Keys

namespace Config

variable {c : Config} {direction : Direction} {env : Env ℝ} {C P : Cell → ℝ} {D Z : ℝ}

/-- The flux without noise has a value. -/
theorem exists_eval_fluxValue (h : direction ∈ c.stencil.staggered)
    (hc : c.fields.concentration.HasValues env.fields C)
    (hpot : c.fields.potential.HasValues env.fields P)
    (hv : ∀ axis : Axis, ∀ y, (env.fields c.fields.velocity.name axis.index y).isSome)
    (hD : env.bindings.get? Parameter.diffusion.name = some D)
    (hZ : env.bindings.get? Parameter.valency.name = some Z) :
    ∃ value, (c.fluxValue direction.offset).eval env = .ok value := by
  obtain ⟨a, ha⟩ := exists_eval_advectiveValue hc hv direction.offset
  have hparameter {p : Parameter} {v : ℝ} (hp : env.bindings.get? p.name = some v) :
      TransformsTo (faceNode direction.offset) env p.expr v :=
    .of_eval (keepsAt_faceNode rfl _ _) (eval_parameter hp)
  exact ⟨_, eval_transportValue (Stencil.nonzeroAxes_ne_nil h) hc hpot (hparameter hD)
    (hparameter hZ) ha⟩

/-- On a face the kernel with noise computes the flux without noise and the random flux. -/
theorem eval_noisyValue (h : direction ∈ c.stencil.staggered)
    (hc : c.fields.concentration.HasValues env.fields C)
    (hD : env.bindings.get? Parameter.diffusion.name = some D) {k : ℕ} {ξ value : ℝ}
    (hnoise : env.bindings.get? (noiseName k) = some ξ)
    (hvalue : (c.fluxValue direction.offset).eval env = .ok value) :
    (c.noisyValue direction.offset k).eval env =
      .ok (value + noiseStrength C D c.stencil.noiseFactor env.cell direction.offset * (2 * √3) *
        (ξ - 1 / 2)) := by
  have hrandom := eval_noise (n := direction.offset) hc (eval_parameter hD)
    c.stencil.noiseFactor hnoise
  have hreading : (c.fluxValue direction.offset + c.noiseValue direction.offset k : Expr ℝ).All
      (Reading (fun r => r.DeclaredIn c.transportFields ∧ r.offset.Within 1) fun _ => True) :=
    All.add_pair combines_reading (reading_fluxValue h trivial trivial)
      (reading_noiseValue h trivial trivial)
  exact hreading.keeps_mapKeys _ _ (eval_add hvalue hrandom)

/-- The flux without noise does not look at random numbers. -/
theorem keeps_fluxValue (h : direction ∈ c.stencil.staggered) {fields : FieldValues ℝ}
    {b b' : Bindings ℝ} {x : Cell} (hb : ∀ p : Parameter, b'.get? p.name = b.get? p.name) :
    Keeps ((c.fluxValue direction.offset).eval ⟨fields, b, x⟩)
      ((c.fluxValue direction.offset).eval ⟨fields, b', x⟩) := by
  have hreading := reading_fluxValue (K := ℝ) (S := fun s => ∃ p : Parameter, p.symbol = s) h
    ⟨_, rfl⟩ ⟨_, rfl⟩
  refine hreading.keeps_eval (fun _ _ => rfl) fun s hs => ?_
  obtain ⟨p, rfl⟩ := hs
  exact hb p

/-- The two flux kernels of a catalog.  Given values for the fields that they read and for their
parameters, both can be evaluated, and for each direction the kernel with noise writes what the other
one writes, and the random flux that the draw in the channel of the direction makes. -/
theorem evalAt_fluctuation (h : c.validate = .ok ()) {fields : FieldValues ℝ} {b : Bindings ℝ}
    {x : Cell} (hc : c.fields.concentration.HasValues fields C)
    (hpot : c.fields.potential.HasValues fields P)
    (hv : ∀ axis : Axis, ∀ y, (fields c.fields.velocity.name axis.index y).isSome)
    {q : FluxParameters} (hq : q.BoundBy b) (hx : ∀ axis, (x.get axis).natAbs ≤ exactBound) :
    ∃ (set : KernelSet ℝ) (flux noisy : Kernel ℝ) (value : Direction → ℝ),
      c.kernelSet = .ok set ∧ set.get? "AdvectionDiffusion" = some flux ∧
      set.get? "AdvectionDiffusionFluctuation" = some noisy ∧
      flux.collection.evalAt fields b x = .ok (c.stencil.staggered.zipIdx.map fun p =>
        (c.fields.flux.location p.2 0, value p.1)) ∧
      noisy.collection.evalAt fields b x = .ok (c.stencil.staggered.zipIdx.map fun p =>
        (c.fields.flux.location p.2 0, value p.1 +
          noiseStrength C q.diffusion c.stencil.noiseFactor x p.1.offset * (2 * √3) *
            (unitDraw (q.foldCell x) p.2 q.timeStep q.seed - 1 / 2))) := by
  obtain ⟨set, hset, -⟩ := exists_kernelSet (K := ℝ) h
  have hget {kernel : Kernel ℝ} (hkernel : kernel ∈ c.fluxEntries) :
      set.get? kernel.name = some kernel :=
    get?_kernelSet hset (mem_catalog.2 (Or.inl (Or.inl hkernel)))
  have hexists : ∀ direction ∈ c.stencil.staggered,
      ∃ value, (c.fluxValue direction.offset).eval ⟨fields, b, x⟩ = .ok value := fun _ hdirection =>
    exists_eval_fluxValue hdirection hc hpot hv hq.diffusion hq.valency
  choose! value hvalue using hexists
  have hdraw (k : ℕ) (_ : k ∈ List.range c.stencil.staggered.length) :
      (foldedDraw k).eval ⟨fields, b, x⟩ = .ok (unitDraw (q.foldCell x) k q.timeStep q.seed) :=
    hq.eval_foldedDraw hx k
  obtain ⟨b', hbound, hdrawn, hothers⟩ := Collection.bindAll_foldedNoise hdraw
  have hparameter (p : Parameter) : b'.get? p.name = b.get? p.name :=
    hothers p.name fun k _ => (noiseName_ne_parameter k p).symm
  refine ⟨set, _, _, value, hset, hget List.mem_cons_self,
    hget (List.mem_cons_of_mem _ List.mem_cons_self), ?_, ?_⟩
  · exact Collection.evalAt_ofFaces (fun _ => value) fun p hp =>
      hvalue p.1 (List.fst_mem_of_mem_zipIdx hp)
  · rw [← c.subexpressions_noisyTransport] at hbound
    refine bind_eq_ok.2 ⟨_, hbound, ?_⟩
    change Collection.evalMain _ c.noisyTransport.main = _
    rw [main_noisyTransport]
    refine Collection.evalMain_map fun p hp => ?_
    have hdirection := List.fst_mem_of_mem_zipIdx hp
    have hk : p.2 < c.stencil.staggered.length :=
      (List.snd_lt_of_mem_zipIdx hp).trans_eq (add_zero _)
    -- The random numbers are bound now, and the flux without noise does not see them.
    have hflux := keeps_fluxValue hdirection hparameter _ (hvalue p.1 hdirection)
    exact eval_noisyValue hdirection hc ((hparameter .diffusion).trans hq.diffusion)
      (hdrawn p.2 (List.mem_range.2 hk)) hflux

/-- At a ghost cell of a domain of three cells along every axis, with a concentration that grows along
an axis. -/
theorem evalAt_fluctuation_ghost :
    let fields : FieldValues ℝ := fun name _ y => some (if name = "c" then (y.x + 2) / 4 else 1 / 8)
    let b : Bindings ℝ := .ofList [("D", 2), ("z", -1), ("L_0", (3 : ℕ)), ("L_1", (3 : ℕ)),
      ("L_2", (3 : ℕ)), ("time_step", (5 : ℕ)), ("seed", (7 : ℕ))]
    ∃ (set : KernelSet ℝ) (flux noisy : Kernel ℝ) (value : Direction → ℝ),
      reference.kernelSet = .ok set ∧ set.get? "AdvectionDiffusion" = some flux ∧
      set.get? "AdvectionDiffusionFluctuation" = some noisy ∧
      flux.collection.evalAt fields b ⟨-1, 0, 3⟩ = .ok (Stencil.d3q19.staggered.zipIdx.map fun p =>
        (⟨"j", p.2, 0⟩, value p.1)) ∧
      noisy.collection.evalAt fields b ⟨-1, 0, 3⟩ = .ok (Stencil.d3q19.staggered.zipIdx.map fun p =>
        (⟨"j", p.2, 0⟩, value p.1 +
          noiseStrength (fun y => (y.x + 2) / 4) 2 Stencil.d3q19.noiseFactor ⟨-1, 0, 3⟩ p.1.offset *
            (2 * √3) * (unitDraw ⟨2, 0, 0⟩ p.2 5 7 - 1 / 2))) := by
  intro fields b
  let q : FluxParameters :=
    { diffusion := 2
      valency := -1
      extent := fun _ => 3
      timeStep := 5
      seed := 7
      extent_pos := fun _ => by decide
      extent_lt := fun _ => by decide
      timeStep_le := by decide
      seed_le := by decide }
  have hq : q.BoundBy b := ⟨rfl, rfl, fun axis => by cases axis <;> rfl, rfl, rfl⟩
  have hx : ∀ axis, ((⟨-1, 0, 3⟩ : Cell).get axis).natAbs ≤ exactBound := by
    intro axis
    cases axis <;> decide
  have hc : reference.fields.concentration.HasValues fields fun y => (y.x + 2) / 4 := fun y => rfl
  have hpot : reference.fields.potential.HasValues fields fun _ => 1 / 8 := fun y => rfl
  have hv (axis : Axis) (y : Cell) :
      (fields reference.fields.velocity.name axis.index y).isSome = true := rfl
  have hextent : q.extent = fun _ => 3 := rfl
  have hfold : q.foldCell ⟨-1, 0, 3⟩ = ⟨2, 0, 0⟩ := by
    rw [FluxParameters.foldCell, hextent]
    rfl
  rw [← hfold]
  exact evalAt_fluctuation rfl hc hpot hv hq hx

end Config

end Electrokinetics
