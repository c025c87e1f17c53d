/-
**What the flux through a face is.**

The flux of a charged species starts as a vector of derivatives, is projected on the normal of a face,
brought onto the face and divided by the length of the normal.  Along every axis of the normal the
difference across the face is shared by all such axes, so in the projection the shares add up to the
difference again: what comes out is diffusion down the difference of the concentration and migration of
the mean concentration down the difference of the potential, whatever the number of axes and the signs
of the normal.

Main definitions:

* `Expr.faceNode` — what bringing an expression onto a face does at a node;
* `Field.HasValues` — a field with a value at every cell;
* `drivingForce` — what diffusion and migration through a face are proportional to.

Main results:

* `transformsTo_diffusionFlux` — a component of the flux vector on a face;
* `FiniteVolume.eval_faceValue_of_parts` — any flux through a face, from its components there;
* `FiniteVolume.eval_faceValue` — diffusion and migration through a face;
* `eval_transportValue` — advection comes on top;
* `evalAt_transportFlux` — the writes of the flux, over the real numbers.
-/

import Electrokinetics.Proofs.Expr.Parts
import Electrokinetics.Proofs.Expr.Reading
import Electrokinetics.Proofs.Scalar.Real
import Electrokinetics.Proofs.Sweep.Writes
import Electrokinetics.Proofs.Transport.Nodes

set_option relaxedAutoImplicit false
set_option autoImplicit false

namespace Electrokinetics

open Electrokinetics.Expr

/-! ### Nodes on a face -/

namespace Expr

variable {K : Type} [Scalar K]

/-- What bringing an expression onto the face towards `n` does at a node. -/
def faceNode (n : Offset) : Expr K → Option (Expr K)
  | .access a => some ((.access (a.shift n) + .access a) * .num Scalar.half)
  | .deriv arg axis => some (arg.faceDerivative axis n)
  | _ => none

theorem faceNode_eq_none {e : Expr K} (n : Offset) (h : e.isArithmetic = true) :
    faceNode n e = none := by
  cases e <;> first | rfl | cases h

/-- An expression that reads no field is the same on a face.  Its derivatives are not, but these have
no value. -/
theorem keepsAt_faceNode {e : Expr K} (h : e.hasAccess = false) (n : Offset) (env : Env K) :
    e.All (KeepsAt (faceNode n) env env) := by
  intro t ht
  unfold KeepsAt
  cases t with
  | access a => exact absurd ht (access_notMem_subterms h a)
  | deriv arg axis => exact keeps_deriv axis _
  | _ => exact fun _ => Keeps.refl _

end Expr

/-! ### Fields on a face -/

/-- A field has a value at every cell. -/
def Field.HasValues {K : Type} (f : Field) (fields : FieldValues K) (u : Cell → K) : Prop :=
  ∀ y, fields f.name 0 y = some (u y)

section Faces

variable {K : Type} [Scalar K] {env : Env K} {n : Offset} {f : Field} {u : Cell → K}

theorem Field.HasValues.eval_center (h : f.HasValues env.fields u) :
    (f.center : Expr K).eval env = .ok (u env.cell) := eval_access_here (h env.cell)

theorem Field.HasValues.eval_neighbor (h : f.HasValues env.fields u) (n : Offset) :
    (f.neighbor n : Expr K).eval env = .ok (u (env.cell + n)) := eval_access (h (env.cell + n))

variable [OrderedField K] [ExactScalar K]

/-- On a face a field is the mean of its two values. -/
theorem transformsTo_center (h : f.HasValues env.fields u) :
    TransformsTo (faceNode n) env f.center ((u (env.cell + n) + u env.cell) / 2) := by
  have hhalf : (num Scalar.half : Expr K).eval env = .ok (1 / 2) := by
    rw [← Scalar.half_eq]
    rfl
  have hmean := eval_mul (eval_add (h.eval_neighbor n) h.eval_center) hhalf
  rw [← f.shift_center, mul_one_div] at hmean
  exact .other rfl hmean

/-- Along an axis of the normal what is built is a share of the difference of the expression with its
reads moved and the expression itself. -/
theorem Expr.eval_faceDerivative {e : Expr K} {axis : Axis} (haxis : n.get axis ≠ 0) {u w : K}
    (hu : e.eval env = .ok u) (hw : (e.shift n).eval env = .ok w) :
    (e.faceDerivative axis n).eval env = .ok ((w - u) / (n.get axis * n.nonzeroAxes.length)) := by
  have hshare : Scalar.mul (Scalar.ofInt (n.get axis)) (Scalar.ofInt n.nonzeroAxes.length) =
      (n.get axis * n.nonzeroAxes.length : K) := by
    rw [ExactScalar.mul_eq, ExactScalar.ofInt_eq, ExactScalar.ofInt_eq, Int.cast_natCast]
  rw [faceDerivative, if_neg haxis, ← hshare]
  exact eval_div_scalar (eval_sub hw hu) _

/-- Along an axis of the normal a derivative is a share of the difference across the face. -/
theorem transformsTo_derivative (h : f.HasValues env.fields u) {axis : Axis}
    (haxis : n.get axis ≠ 0) :
    TransformsTo (faceNode n) env (.deriv f.center axis)
      ((u (env.cell + n) - u env.cell) / (n.get axis * n.nonzeroAxes.length)) := by
  have hthere : ((f.center : Expr K).shift n).eval env = .ok (u (env.cell + n)) := by
    rw [f.shift_center]
    exact h.eval_neighbor n
  exact .other rfl (eval_faceDerivative haxis h.eval_center hthere)

end Faces

/-! ### The flux through a face -/

section Flux

variable {K : Type} [OrderedField K] [Scalar K] [ExactScalar K] {env : Env K} {n : Offset}
  {c pot : Field} {C P : Cell → K} {d z : Expr K} {D Z : K}

/-- What drives diffusion and migration through the face towards `n`: the difference of the
concentrations, and the mean concentration times valency and difference of the potentials. -/
def drivingForce (C P : Cell → K) (Z : K) (x : Cell) (n : Offset) : K :=
  (C (x + n) - C x) + Z * ((C (x + n) + C x) / 2) * (P (x + n) - P x)

/-- A component of the flux vector along an axis of the normal is a share of the whole. -/
theorem transformsTo_diffusionFlux (hc : c.HasValues env.fields C)
    (hpot : pot.HasValues env.fields P) (hd : TransformsTo (faceNode n) env d D)
    (hz : TransformsTo (faceNode n) env z Z) {axis : Axis} (haxis : n.get axis ≠ 0) :
    TransformsTo (faceNode n) env ((diffusionFlux c.center pot.center d z).get axis)
      (-(D * drivingForce C P Z env.cell n) / (n.get axis * n.nonzeroAxes.length)) := by
  have hR := meaning_transformsTo (faceNode n) env
  have hmean := transformsTo_center (n := n) hc
  have hflux := hR.sub (hR.neg (hR.mul_pair hd (transformsTo_derivative hc haxis)))
    (hR.mul_pair (hR.mul_pair (hR.mul_pair hd hz) hmean) (transformsTo_derivative hpot haxis))
  have hvalue : -(D * drivingForce C P Z env.cell n) / (n.get axis * n.nonzeroAxes.length) =
      -(D * ((C (env.cell + n) - C env.cell) / (n.get axis * n.nonzeroAxes.length))) -
        D * Z * ((C (env.cell + n) + C env.cell) / 2) *
          ((P (env.cell + n) - P env.cell) / (n.get axis * n.nonzeroAxes.length)) := by
    simp only [drivingForce]
    ring
  rw [diffusionFlux, PerAxis.get_ofFn, gradient, gradient, PerAxis.get_ofFn, PerAxis.get_ofFn,
    hvalue]
  exact hflux

omit [Scalar K] [ExactScalar K] in
/-- The shares of all axes of the normal add up. -/
theorem sum_shares (hn : n.nonzeroAxes ≠ []) (y : K) :
    (n.nonzeroAxes.map fun axis =>
      (n.get axis : K) * (y / (n.get axis * n.nonzeroAxes.length))).sum = y := by
  have hlength : (n.nonzeroAxes.length : K) ≠ 0 :=
    Nat.cast_ne_zero.2 (List.length_pos_iff.2 hn).ne'
  have hshare : ∀ axis ∈ n.nonzeroAxes,
      (n.get axis : K) * (y / (n.get axis * n.nonzeroAxes.length)) = y / n.nonzeroAxes.length := by
    intro axis haxis
    have hcomponent : (n.get axis : K) ≠ 0 := Int.cast_ne_zero.2 (Offset.mem_nonzeroAxes.1 haxis)
    field_simp
  rw [List.map_congr_left hshare, List.map_const', List.sum_replicate, nsmul_eq_mul,
    mul_div_cancel₀ y hlength]

/-- The value of a flux on a face is the scalar product of the normal with what the components of the
flux come to there, over the length of the normal. -/
theorem FiniteVolume.eval_faceValue_of_parts {v : FiniteVolume K} {F : Axis → K}
    (h : ∀ axis, n.get axis ≠ 0 → TransformsTo (faceNode n) env (v.flux.get axis) (F axis)) :
    (v.faceValue n).eval env =
      .ok ((n.nonzeroAxes.map fun axis => (n.get axis : K) * F axis).sum / n.norm) := by
  have hR := meaning_transformsTo (faceNode n) env
  have hnumber (axis : Axis) :
      TransformsTo (faceNode n) env (num (Scalar.ofInt (n.get axis))) (n.get axis : K) := by
    rw [← ExactScalar.ofInt_eq]
    exact hR.number _
  have hprojected := hR.add_map fun axis haxis =>
    hR.mul_pair (hnumber axis) (h axis (Offset.mem_nonzeroAxes.1 haxis))
  exact eval_div_scalar (hprojected.eval fun e => faceNode_eq_none n) (n.norm : K)

/-- Diffusion and migration through a face. -/
theorem FiniteVolume.eval_faceValue (hn : n.nonzeroAxes ≠ []) (hc : c.HasValues env.fields C)
    (hpot : pot.HasValues env.fields P) (hd : TransformsTo (faceNode n) env d D)
    (hz : TransformsTo (faceNode n) env z Z) :
    (FiniteVolume.faceValue ⟨c, diffusionFlux c.center pot.center d z⟩ n).eval env =
      .ok (-(D / n.norm) * drivingForce C P Z env.cell n) := by
  have hface := FiniteVolume.eval_faceValue_of_parts
    (v := ⟨c, diffusionFlux c.center pot.center d z⟩) fun axis haxis =>
      transformsTo_diffusionFlux hc hpot hd hz haxis
  rw [sum_shares hn, neg_div, mul_div_right_comm, ← neg_mul] at hface
  exact hface

/-- Advection comes on top. -/
theorem eval_transportValue {v : Field} (hn : n.nonzeroAxes ≠ []) (hc : c.HasValues env.fields C)
    (hpot : pot.HasValues env.fields P) (hd : TransformsTo (faceNode n) env d D)
    (hz : TransformsTo (faceNode n) env z Z) {a : K}
    (hadvection : (advectiveValue v c n).eval env = .ok a) :
    (transportValue c v pot d z n).eval env =
      .ok (-(D / n.norm) * drivingForce C P Z env.cell n + a) := by
  rw [add_comm]
  exact eval_add hadvection (FiniteVolume.eval_faceValue hn hc hpot hd hz)

omit [OrderedField K] [ExactScalar K] in
/-- A velocity moves boxes of fluid wherever it has values. -/
theorem exists_eval_advectiveValue {v : Field} (hc : c.HasValues env.fields C)
    (hv : ∀ axis : Axis, ∀ y, (env.fields v.name axis.index y).isSome) (n : Offset) :
    ∃ a, (advectiveValue v c n : Expr K).eval env = .ok a := by
  have hvelocity (axis : Axis) (m : Offset) :
      ∃ u, env.fields v.name axis.index (env.cell + m) = some u :=
    Option.isSome_iff_exists.1 (hv axis (env.cell + m))
  have hreading : (advectiveValue v c n : Expr K).All (Reading
      (fun a => ∃ u, env.fields a.field a.component (env.cell + a.offset) = some u)
      fun _ => False) :=
    all_advectiveValue combines_reading ⟨_, hc _⟩ ⟨_, hc _⟩ fun axis =>
      ⟨hvelocity axis 0, hvelocity axis n⟩
  exact exists_eval hreading (fun a ha => ha) fun s hs => hs.elim

end Flux

/-! ### The writes of a flux -/

theorem Stencil.nonzeroAxes_ne_nil {stencil : Stencil} {direction : Direction}
    (h : direction ∈ stencil.staggered) : direction.offset.nonzeroAxes ≠ [] := by
  have hall : ∀ direction ∈ d3q27.staggered, direction.offset.nonzeroAxes ≠ [] := by decide
  exact hall direction (stencil.staggered_sublist.subset h)

section Writes

variable {K : Type} [Scalar K]

/-- A flux that is built face by face writes the values of its faces. -/
theorem Collection.evalAt_ofFaces {j : Field} {stencil : Stencil}
    {value : Nat → Direction → Expr K} {fields : FieldValues K} {b : Bindings K} {x : Cell}
    (w : Nat → Direction → K) (h : ∀ p ∈ stencil.staggered.zipIdx,
      (value p.2 p.1).eval ⟨fields, b, x⟩ = .ok (w p.2 p.1)) :
    (Collection.ofFaces j stencil value).evalAt fields b x =
      .ok (stencil.staggered.zipIdx.map fun p => (j.location p.2 0, w p.2 p.1)) :=
  bind_eq_ok.2 ⟨_, rfl, evalMain_map h⟩

end Writes

/-- With values for all fields, the flux through each face is diffusion and migration, driven by the
differences across the face, and what advection carries. -/
theorem evalAt_transportFlux {c v pot j : Field} {stencil : Stencil} (hj : j.kind = .flux stencil)
    (hcomponents : Axis.z.index < v.components) {fields : FieldValues ℝ} {b : Bindings ℝ} {x : Cell}
    {C P : Cell → ℝ} (hc : c.HasValues fields C) (hpot : pot.HasValues fields P)
    (hv : ∀ axis : Axis, ∀ y, (fields v.name axis.index y).isSome) {d z : Expr ℝ} {D Z : ℝ}
    (hd : d.hasAccess = false) (hz : z.hasAccess = false) (hD : d.eval ⟨fields, b, x⟩ = .ok D)
    (hZ : z.eval ⟨fields, b, x⟩ = .ok Z) :
    ∃ flux advective : Collection ℝ, ∃ advection : Direction → ℝ,
      transportFlux c v pot j d z = .ok flux ∧ advectiveFlux j v c = .ok advective ∧
      advective.evalAt fields b x =
        .ok (stencil.staggered.zipIdx.map fun p => (j.location p.2 0, advection p.1)) ∧
      flux.evalAt fields b x = .ok (stencil.staggered.zipIdx.map fun p => (j.location p.2 0,
        -(D / √p.1.offset.normSq) * drivingForce C P Z x p.1.offset + advection p.1)) := by
  have hadvection (direction : Direction) : ∃ a : ℝ,
      (advectiveValue v c direction.offset).eval ⟨fields, b, x⟩ = .ok a :=
    exists_eval_advectiveValue hc hv direction.offset
  choose a ha using hadvection
  refine ⟨_, _, a, transportFlux_eq hj hcomponents, advectiveFlux_eq hj hcomponents,
    Collection.evalAt_ofFaces (fun _ => a) fun p _ => ha p.1,
    Collection.evalAt_ofFaces (fun _ direction => -(D / √direction.offset.normSq) *
      drivingForce C P Z x direction.offset + a direction) fun p hp => ?_⟩
  have hdirection : p.1 ∈ stencil.staggered := List.fst_mem_of_mem_zipIdx hp
  exact eval_transportValue (Stencil.nonzeroAxes_ne_nil hdirection) hc hpot
    (.of_eval (keepsAt_faceNode hd _ _) hD) (.of_eval (keepsAt_faceNode hz _ _) hZ) (ha p.1)

/-- The faces and edges of a cell, with a concentration and a potential that are not symmetric. -/
theorem evalAt_transportFlux_edges :
    let c : Field := .scalar "c"
    let v : Field := .vector "v" 3
    let j : Field := .flux "j" .d3q19
    let fields : FieldValues ℝ := fun name component y => some <|
      if name = "c" then y.x * y.y else if name = "phi" then y.x + 2 * y.y - y.z
      else (component : ℝ) / 4 - 1 / 4
    let b : Bindings ℝ := (Bindings.empty.insert "D" 3).insert "z" (-1)
    ∃ flux advective : Collection ℝ, ∃ advection : Direction → ℝ,
      transportFlux c v (.scalar "phi") j (.real "D") (.real "z") = .ok flux ∧
      advectiveFlux j v c = .ok advective ∧
      advective.evalAt fields b ⟨2, -1, 0⟩ = .ok (Stencil.d3q19.staggered.zipIdx.map fun p =>
        (j.location p.2 0, advection p.1)) ∧
      flux.evalAt fields b ⟨2, -1, 0⟩ = .ok (Stencil.d3q19.staggered.zipIdx.map fun p =>
        (j.location p.2 0, -(3 / √p.1.offset.normSq) *
          drivingForce (fun y => (y.x * y.y : ℝ)) (fun y => y.x + 2 * y.y - y.z) (-1) ⟨2, -1, 0⟩
            p.1.offset + advection p.1)) := by
  intro c v j fields b
  have hcomponents : Axis.z.index < v.components := by decide
  exact evalAt_transportFlux rfl hcomponents (fun y => rfl) (fun y => rfl) (fun axis y => rfl)
    rfl rfl rfl rfl

end Electrokinetics
