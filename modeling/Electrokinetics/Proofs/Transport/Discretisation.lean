/-
**A continuum flux on a face.**

A continuum flux is given by expressions in fields and their derivatives.  What it comes to on the face
between two cells can be said without rewriting the expressions: they are evaluated there, where a field
is the mean of its values at the two cells and a derivative is a difference of values nearby.  The
fluxes that are built have these values, whatever the expressions are.

This stops at coordinates.  A difference across a face compares an expression at two cells, but what is
built for it reads the fields at both and takes the coordinates of one.  So of an expression in fields
the projected gradient is the difference across the face, and of one in coordinates it need not be.

Main definitions:

* `Env.reading` — surroundings in which fields are read further along;
* `Expr.evalOnFace` — the value of an expression on a face;
* `Expr.meanOnFace`, `Expr.derivativeOnFace` — what fields and derivatives come to there.

Main results:

* `Expr.keeps_shift` — moving the reads of an expression;
* `Expr.transformsTo_evalOnFace` — bringing an expression onto a face;
* `FiniteVolume.faceFlux_values` — the fluxes that are built;
* `FiniteVolume.faceFlux_gradient` — the flux that is a gradient;
* `FiniteVolume.faceFlux_gradient_coordinate` — the gradient of a coordinate.
-/

import Electrokinetics.Proofs.Transport.Values

set_option relaxedAutoImplicit false
set_option autoImplicit false

namespace Electrokinetics

/-- The same surroundings, but fields are read further along by an offset. -/
def Env.reading {K : Type} (n : Offset) (env : Env K) : Env K :=
  { env with fields := fun field component x => env.fields field component (x + n) }

/-! ### Values on a face -/

namespace Expr

section Definitions

variable {K : Type} [OrderedField K] [Scalar K]

/-- The mean of the values at the two cells of the face towards `n`. -/
def meanOnFace (n : Offset) (env : Env K) (e : Expr K) : Except (EvalError K) K := do
  let here ← e.eval env
  let there ← e.eval (env.moveTo (env.cell + n))
  return (here + there) / (2 : ℕ)

/-- The central difference along an axis. -/
def centralDifference (env : Env K) (e : Expr K) (axis : Axis) : Except (EvalError K) K := do
  let ahead ← e.eval (env.moveTo (env.cell + axis.unit))
  let behind ← e.eval (env.moveTo (env.cell + -axis.unit))
  return (ahead - behind) / (2 : ℕ)

/-- The derivative along an axis on the face towards `n`.  Along an axis of the normal it is a share of
the difference across the face, along any other one the mean of the central differences at the two
cells. -/
def derivativeOnFace (n : Offset) (env : Env K) (e : Expr K) (axis : Axis) :
    Except (EvalError K) K :=
  if n.get axis = 0 then do
    let here ← e.centralDifference env axis
    let there ← e.centralDifference (env.moveTo (env.cell + n)) axis
    return (here + there) / (2 : ℕ)
  else do
    let here ← e.eval env
    let there ← e.eval (env.moveTo (env.cell + n))
    return (there - here) / (n.get axis * n.nonzeroAxes.length)

/-- What is looked up on the face towards `n`. -/
def faceSource (n : Offset) (env : Env K) : Expr K → Except (EvalError K) K
  | .access a => (access a).meanOnFace n env
  | .deriv arg axis => arg.derivativeOnFace n env axis
  | t => t.eval env

/-- The value of an expression on the face between the current cell and its neighbour `n`. -/
def evalOnFace (n : Offset) (env : Env K) (e : Expr K) : Except (EvalError K) K :=
  e.evalFrom (faceSource n env)

end Definitions

/-! ### Moving the reads of an expression -/

variable {K : Type} [OrderedField K] [Scalar K] [ExactScalar K] {env : Env K} {n : Offset}
  {e : Expr K}

/-- Moving the reads of an expression gives its value where the fields are read further along. -/
theorem keeps_shift (env : Env K) (n : Offset) (e : Expr K) :
    Keeps (e.eval (env.reading n)) ((e.shift n).eval env) := by
  refine keeps_transform fun t _ => ?_
  unfold KeepsAt
  cases t with
  | access a =>
      intro v hv
      refine eval_access ?_
      rw [← eval_access_eq_ok_iff.1 hv]
      exact congrArg (env.fields a.field a.component) (Cell.add_assoc _ _ _).symm
  | symbol s => exact fun _ => Keeps.refl _
  | counter axis => exact fun _ => Keeps.refl _
  | _ => exact fun hread => by cases hread

omit [OrderedField K] [ExactScalar K] in
/-- Without coordinates this is its value at the cell further along. -/
theorem keeps_reading (hcounter : e.hasCounter = false) :
    Keeps (e.eval (env.moveTo (env.cell + n))) (e.eval (env.reading n)) :=
  keeps_eval_of_fields hcounter fun field component m =>
    congrArg (env.fields field component) (Cell.add_right_comm env.cell m n)

theorem eval_shift (hcounter : e.hasCounter = false) {v : K}
    (h : e.eval (env.moveTo (env.cell + n)) = .ok v) : (e.shift n).eval env = .ok v :=
  keeps_shift env n e v (keeps_reading hcounter v h)

/-! ### Bringing an expression onto a face -/

/-- What is built for a read is the mean. -/
theorem keeps_meanOnFace (a : Access) :
    Keeps ((access a).meanOnFace n env)
      (((.access (a.shift n) + .access a) * .num Scalar.half : Expr K).eval env) := by
  intro v hv
  obtain ⟨here, hhere, hv⟩ := bind_eq_ok.1 hv
  obtain ⟨there, hthere, hv⟩ := bind_eq_ok.1 hv
  have hmean : (here + there) / 2 = v := Except.ok.inj hv
  have hhalf : (num Scalar.half : Expr K).eval env = .ok (1 / 2) := congrArg Except.ok Scalar.half_eq
  have hshifted : (access (a.shift n)).eval env = .ok there := eval_shift rfl hthere
  rw [← hmean, add_comm here, ← mul_one_div]
  exact eval_mul (eval_add hshifted hhere) hhalf

/-- What is built for a derivative of an expression without coordinates is the derivative. -/
theorem keeps_derivativeOnFace (hcounter : e.hasCounter = false) (axis : Axis) :
    Keeps (e.derivativeOnFace n env axis) ((e.faceDerivative axis n).eval env) := by
  intro v hv
  rw [derivativeOnFace] at hv
  by_cases haxis : n.get axis = 0
  · rw [if_pos haxis] at hv
    obtain ⟨here, hhere, hv⟩ := bind_eq_ok.1 hv
    obtain ⟨there, hthere, hv⟩ := bind_eq_ok.1 hv
    obtain ⟨a, ha, hhere⟩ := bind_eq_ok.1 hhere
    obtain ⟨b, hb, hhere⟩ := bind_eq_ok.1 hhere
    obtain ⟨c, hc, hthere⟩ := bind_eq_ok.1 hthere
    obtain ⟨d, hd, hthere⟩ := bind_eq_ok.1 hthere
    have hv : (here + there) / 2 = v := Except.ok.inj hv
    have hhere : (a - b) / 2 = here := Except.ok.inj hhere
    have hthere : (c - d) / 2 = there := Except.ok.inj hthere
    -- The cells of the second difference are two steps away.
    have hfurther {m : Offset} {u : K}
        (h : e.eval ((env.moveTo (env.cell + n)).moveTo (env.cell + n + m)) = .ok u) :
        (e.shift (n + m)).eval env = .ok u := by
      rw [Cell.add_assoc] at h
      exact eval_shift hcounter h
    have hsum := eval_sub (eval_add (eval_sub (hfurther hc) (hfurther hd)) (eval_shift hcounter ha))
      (eval_shift hcounter hb)
    have hfour : (Scalar.ofInt 4 : K) = 4 := by
      rw [ExactScalar.ofInt_eq, Int.cast_ofNat]
    have hmean : (c - d + a - b) / Scalar.ofInt 4 = v := by
      rw [← hv, ← hhere, ← hthere, hfour]
      ring
    rw [faceDerivative, if_pos haxis, ← hmean]
    exact eval_div_scalar hsum _
  · rw [if_neg haxis] at hv
    obtain ⟨here, hhere, hv⟩ := bind_eq_ok.1 hv
    obtain ⟨there, hthere, hv⟩ := bind_eq_ok.1 hv
    rw [← hv]
    exact eval_faceDerivative haxis hhere (eval_shift hcounter hthere)

/-- At every node, what is built has the value on the face. -/
theorem keepsFrom_faceNode (hcounter : e.hasCounter = false) :
    e.All (KeepsFrom (faceNode n) (faceSource n env) env) := by
  intro t ht
  unfold KeepsFrom
  cases t with
  | access a => exact keeps_meanOnFace a
  | deriv arg axis =>
      have hnone : e.All fun t => ¬t.isCounter = true := List.any_eq_false.1 hcounter
      have harg := (all_deriv.1 (hnone.all _ ht)).2
      exact keeps_derivativeOnFace (List.any_eq_false.2 harg) axis
  | symbol s => exact fun _ => Keeps.refl _
  | counter axis => exact fun _ => Keeps.refl _
  | _ => exact fun hsourced => by cases hsourced

/-- **Bringing an expression onto a face**: an expression without coordinates transforms to its value
there. -/
theorem transformsTo_evalOnFace (hcounter : e.hasCounter = false) {v : K}
    (h : e.evalOnFace n env = .ok v) : TransformsTo (faceNode n) env e v :=
  .of_evalFrom (keepsFrom_faceNode hcounter) h

/-- The partial derivative of an expression transforms to its share of the difference between the
expression with its reads moved and the expression itself.  What reads nothing and has no coordinates
has no derivative, but no difference either. -/
theorem transformsTo_gradient {axis : Axis} (haxis : n.get axis ≠ 0) {u w : K}
    (hu : e.eval env = .ok u) (hw : e.eval (env.reading n) = .ok w) :
    TransformsTo (faceNode n) env ((gradient e).get axis)
      ((w - u) / (n.get axis * n.nonzeroAxes.length)) := by
  rw [gradient, PerAxis.get_ofFn, Expr.diff]
  split
  · exact .other rfl (eval_faceDerivative haxis hu (keeps_shift env n e w hw))
  · rename_i hconstant
    have haccess : e.hasAccess = false := by
      refine Bool.eq_false_iff.2 fun h => hconstant ?_
      rw [h, Bool.true_or]
    have hsame : e.eval (env.reading n) = e.eval env := eval_congr_fields haccess _ _ _ _
    obtain rfl : w = u := Except.ok.inj (hw.symm.trans (hsame.trans hu))
    rw [sub_self, zero_div, ← Scalar.zero_eq]
    exact .num Scalar.zero

end Expr

/-! ### Fields on a face -/

open Electrokinetics.Expr

section Fields

variable {K : Type} [OrderedField K] [Scalar K] {env : Env K} {n : Offset} {f : Field} {u : Cell → K}

omit [OrderedField K] in
theorem Field.HasValues.eval_center_moveTo (h : f.HasValues env.fields u) (x : Cell) :
    (f.center : Expr K).eval (env.moveTo x) = .ok (u x) := eval_access_here (h x)

theorem Field.HasValues.evalOnFace_center (h : f.HasValues env.fields u) :
    (f.center : Expr K).evalOnFace n env = .ok ((u env.cell + u (env.cell + n)) / 2) :=
  bind_eq_ok.2 ⟨_, h.eval_center, bind_eq_ok.2 ⟨_, h.eval_center_moveTo _, rfl⟩⟩

theorem Field.HasValues.evalOnFace_deriv (h : f.HasValues env.fields u) {axis : Axis}
    (haxis : n.get axis ≠ 0) :
    (deriv f.center axis).evalOnFace n env =
      .ok ((u (env.cell + n) - u env.cell) / (n.get axis * n.nonzeroAxes.length)) := by
  refine (if_neg haxis).trans ?_
  exact bind_eq_ok.2 ⟨_, h.eval_center, bind_eq_ok.2 ⟨_, h.eval_center_moveTo _, rfl⟩⟩

theorem Field.HasValues.evalOnFace_deriv_tangential (h : f.HasValues env.fields u) {axis : Axis}
    (haxis : n.get axis = 0) :
    (deriv f.center axis).evalOnFace n env =
      .ok (((u (env.cell + axis.unit) - u (env.cell + -axis.unit)) / 2 +
        (u (env.cell + n + axis.unit) - u (env.cell + n + -axis.unit)) / 2) / 2) := by
  have hcentral (x : Cell) : (f.center : Expr K).centralDifference (env.moveTo x) axis =
      .ok ((u (x + axis.unit) - u (x + -axis.unit)) / 2) :=
    bind_eq_ok.2 ⟨_, h.eval_center_moveTo _, bind_eq_ok.2 ⟨_, h.eval_center_moveTo _, rfl⟩⟩
  refine (if_pos haxis).trans ?_
  exact bind_eq_ok.2 ⟨_, hcentral env.cell, bind_eq_ok.2 ⟨_, hcentral _, rfl⟩⟩

end Fields

/-! ### The fluxes that are built -/

namespace FiniteVolume

variable {stencil : Stencil}

/-- A flux with products, powers, functions and case distinctions, and with derivatives along the
normals of faces and across them. -/
def mixedFlux : PerAxis (Expr ℝ) :=
  let c : Expr ℝ := .access ⟨"c", 0, 0⟩
  ⟨.prod [c, .deriv c .x], .power c (.num (-1)),
    .select (.greater (.real "D") c) (.call .max [.deriv c .y, c]) (.modulo c (.num 0))⟩

/-- The flux that is a gradient, through a face. -/
theorem eval_faceValue_gradient {c : Field} {f : Expr ℝ} {n : Offset} {env : Env ℝ} {u w : ℝ}
    (hn : n.nonzeroAxes ≠ []) (hu : f.eval env = .ok u) (hw : f.eval (env.reading n) = .ok w) :
    (faceValue ⟨c, gradient f⟩ n).eval env = .ok ((w - u) / √n.normSq) := by
  have hvalue := eval_faceValue_of_parts (v := ⟨c, gradient f⟩) fun axis haxis =>
    transformsTo_gradient haxis hu hw
  rw [sum_shares hn] at hvalue
  exact hvalue

/-- **The projected gradient is a difference across the face** of the expression with its reads moved
to the neighbour and the expression itself.  Without coordinates the former is the value at the
neighbour. -/
theorem faceFlux_gradient (c j : Field) (f : Expr ℝ) (hj : j.kind = .flux stencil) :
    ∃ flux : Collection ℝ, faceFlux ⟨c, gradient f⟩ j = .ok flux ∧
      ∀ k direction, stencil.staggered[k]? = some direction →
        ∃ a, flux.main[k]? = some a ∧ a.target = j.location k 0 ∧
          (∀ (env : Env ℝ) (u w : ℝ), f.eval env = .ok u →
            f.eval (env.reading direction.offset) = .ok w →
            a.value.eval env = .ok ((w - u) / √direction.offset.normSq)) ∧
          (f.hasCounter = false → ∀ (env : Env ℝ) (u w : ℝ), f.eval env = .ok u →
            f.eval (env.moveTo (env.cell + direction.offset)) = .ok w →
            a.value.eval env = .ok ((w - u) / √direction.offset.normSq)) := by
  refine ⟨_, faceFlux_eq _ hj, fun k direction hk => ?_⟩
  have hn := Stencil.nonzeroAxes_ne_nil (List.mem_of_getElem? hk)
  refine ⟨_, Collection.getElem?_main_ofFaces hk, rfl, ?_, ?_⟩
  · intro env u w hu hw
    exact eval_faceValue_gradient hn hu hw
  · intro hcounter env u w hu hw
    exact eval_faceValue_gradient hn hu (keeps_reading hcounter w hw)

/-- A product of two reads, through the corner between a cell and its neighbour at `-x + y - z`. -/
theorem faceFlux_gradient_product :
    let c (n : Offset) : Expr ℝ := .access ⟨"c", 0, n⟩
    let env : Env ℝ := ⟨fun _ _ x => some (x.x * x.x + 2 * x.y : ℤ), ∅, ⟨1, 0, 0⟩⟩
    ∃ flux a, faceFlux ⟨.scalar "c", gradient (.prod [c 0, c ⟨0, 1, 0⟩])⟩ (.flux "j" .d3q27) =
        .ok flux ∧
      flux.main[10]? = some a ∧ a.target = ⟨"j", 10, 0⟩ ∧ a.value.eval env = .ok ((8 - 3) / √3) := by
  intro c env
  obtain ⟨flux, hflux, hfaces⟩ :=
    faceFlux_gradient (.scalar "c") (.flux "j" .d3q27) (.prod [c 0, c ⟨0, 1, 0⟩]) rfl
  obtain ⟨a, ha, htarget, -, hvalue⟩ := hfaces 10 ⟨"BNW", ⟨-1, 1, -1⟩⟩ rfl
  refine ⟨flux, a, hflux, ha, htarget, ?_⟩
  have hhere : (prod [c 0, c ⟨0, 1, 0⟩]).eval env = .ok 3 := by
    change Except.ok (((1 : ℤ) : ℝ) * ((1 : ℤ) : ℝ) * ((3 : ℤ) : ℝ)) = _
    norm_num
  have hthere : (prod [c 0, c ⟨0, 1, 0⟩]).eval (env.moveTo ⟨0, 1, -1⟩) = .ok 8 := by
    change Except.ok (((1 : ℤ) : ℝ) * ((2 : ℤ) : ℝ) * ((4 : ℤ) : ℝ)) = _
    norm_num
  have hnormSq : (Offset.normSq ⟨-1, 1, -1⟩ : ℝ) = 3 := by norm_num [Offset.normSq]
  rw [← hnormSq]
  exact hvalue rfl env 3 8 hhere hthere

/-- The coordinate along `x` falls by one across the face towards `-x`, but its gradient is built to be
zero there: the coordinate is taken from one cell. -/
theorem faceFlux_gradient_coordinate :
    let x : Expr ℝ := .counter .x
    let n : Offset := ⟨-1, 0, 0⟩
    let env : Env ℝ := .ofFields fun _ _ _ => none
    ∃ flux a, faceFlux ⟨.scalar "c", gradient x⟩ (.flux "j" .d3q7) = .ok flux ∧
      Stencil.d3q7.staggered[0]? = some ⟨"W", n⟩ ∧ flux.main[0]? = some a ∧
      x.eval env = .ok 0 ∧ x.eval (env.moveTo (env.cell + n)) = .ok (-1) ∧
      a.value.eval env = .ok 0 ∧ (0 : ℝ) ≠ (-1 - 0) / √n.normSq := by
  intro x n env
  have hhere : x.eval env = .ok 0 := congrArg Except.ok Int.cast_zero
  have hthere : x.eval (env.moveTo (env.cell + n)) = .ok (-1) := by
    change Except.ok ((-1 : ℤ) : ℝ) = _
    norm_num
  have hvalue : (faceValue ⟨.scalar "c", gradient x⟩ n).eval env = .ok 0 := by
    have h := eval_faceValue_gradient (c := .scalar "c") (n := n) (by decide) hhere hhere
    rwa [sub_self, zero_div] at h
  have hne : (0 : ℝ) ≠ (-1 - 0) / √n.normSq := by
    norm_num [n, Offset.normSq]
  exact ⟨_, _, faceFlux_eq _ rfl, rfl, rfl, hhere, hthere, hvalue, hne⟩

end FiniteVolume

end Electrokinetics
