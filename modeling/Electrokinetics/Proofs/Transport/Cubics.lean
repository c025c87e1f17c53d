/-
**Diffusion of cubic polynomials.**

Let the concentration be a polynomial in the coordinates of the cells.  What two opposite neighbours
have more than a cell is a second difference, and it can be seen on the line through the three cells: the
polynomial is one in one variable there.  Up to degree three its second difference is its second
derivative, because the odd powers cancel and there are no even ones beyond the square.  By the chain
rule this is the second derivative of the concentration along the direction.  The rates of a stencil are
isotropic, so of all second derivatives they leave the Laplacian.  A step of diffusion is exact.

Main definitions:

* `onGrid` — the values of a polynomial at the cells;
* `laplacian` — the sum of the second derivatives along the axes;
* `alongLine` — a polynomial on a line;
* `Collection.HeldBy` — fields hold what a kernel writes.

Main results:

* `derivative_alongLine` — the chain rule;
* `sum_neighbors_onGrid` — the second difference of a cubic;
* `exchanged_onGrid` — a step of diffusion;
* `diffusion_of_cubic` — the same of the kernels.
-/

import Electrokinetics.Proofs.Transport.Exchange
import Mathlib.Algebra.MvPolynomial.PDeriv
import Mathlib.Algebra.Polynomial.Derivative
import Mathlib.RingTheory.Polynomial.Basic

set_option relaxedAutoImplicit false
set_option autoImplicit false

namespace Electrokinetics

open MvPolynomial (pderiv)

/-! ### Polynomials in the coordinates -/

variable {p : MvPolynomial Axis ℝ} {x : Cell} {n : Offset}

/-- The values of a polynomial in the coordinates at the cells. -/
noncomputable def onGrid (p : MvPolynomial Axis ℝ) (x : Cell) : ℝ :=
  p.eval fun axis => (x.get axis : ℝ)

/-- The sum of the second derivatives along the axes. -/
noncomputable def laplacian (p : MvPolynomial Axis ℝ) : MvPolynomial Axis ℝ :=
  ∑ axis, pderiv axis (pderiv axis p)

/-- A polynomial on the line through a cell in the direction of an offset. -/
noncomputable def alongLine (x : Cell) (n : Offset) : MvPolynomial Axis ℝ →ₐ[ℝ] Polynomial ℝ :=
  MvPolynomial.aeval fun axis =>
    Polynomial.C (x.get axis : ℝ) + Polynomial.C (n.get axis : ℝ) * Polynomial.X

theorem eval_alongLine (t : ℝ) :
    (alongLine x n p).eval t = p.eval fun axis => (x.get axis : ℝ) + n.get axis * t := by
  induction p using MvPolynomial.induction_on with
  | C a => simp [alongLine]
  | add p q hp hq => rw [map_add, Polynomial.eval_add, hp, hq, map_add]
  | mul_X p axis hp =>
      rw [map_mul, Polynomial.eval_mul, hp, map_mul]
      simp [alongLine]

/-- Some steps along the line there is another cell. -/
theorem eval_alongLine_intCast (m : ℤ) {y : Cell}
    (hy : ∀ axis, y.get axis = x.get axis + n.get axis * m) :
    (alongLine x n p).eval (m : ℝ) = onGrid p y := by
  rw [eval_alongLine, onGrid]
  congr
  funext axis
  rw [hy, Int.cast_add, Int.cast_mul]

/-- The chain rule. -/
theorem derivative_alongLine : Polynomial.derivative (alongLine x n p) =
    ∑ axis, Polynomial.C (n.get axis : ℝ) * alongLine x n (pderiv axis p) := by
  induction p using MvPolynomial.induction_on with
  | C a => simp [alongLine]
  | add p q hp hq =>
      simp only [map_add, hp, hq, mul_add, Finset.sum_add_distrib]
  | mul_X p axis hp =>
      have hslope : Polynomial.derivative (alongLine x n (MvPolynomial.X axis)) =
          ∑ other, Polynomial.C (n.get other : ℝ) *
            alongLine x n (pderiv other (MvPolynomial.X axis)) := by
        have hself : Polynomial.derivative (alongLine x n (MvPolynomial.X axis)) =
            Polynomial.C (n.get axis : ℝ) * alongLine x n (pderiv axis (MvPolynomial.X axis)) := by
          simp [alongLine]
        rw [hself, eq_comm]
        refine Finset.sum_eq_single axis (fun other _ hne => ?_) fun h => ?_
        · rw [MvPolynomial.pderiv_X_of_ne hne.symm, map_zero, mul_zero]
        · exact absurd (Finset.mem_univ axis) h
      have hproduct (other : Axis) : alongLine x n (pderiv other (p * MvPolynomial.X axis)) =
          alongLine x n (pderiv other p) * alongLine x n (MvPolynomial.X axis) +
            alongLine x n p * alongLine x n (pderiv other (MvPolynomial.X axis)) := by
        rw [MvPolynomial.pderiv_mul, map_add, map_mul, map_mul]
      rw [map_mul, Polynomial.derivative_mul, hp, hslope, Finset.sum_mul, Finset.mul_sum,
        ← Finset.sum_add_distrib]
      refine Finset.sum_congr rfl fun other _ => ?_
      rw [hproduct]
      ring

theorem natDegree_alongLine_le (hp : p.totalDegree ≤ 3) : (alongLine x n p).natDegree ≤ 3 := by
  have hcoordinate (axis : Axis) : (Polynomial.C (x.get axis : ℝ) +
      Polynomial.C (n.get axis : ℝ) * Polynomial.X).natDegree ≤ 1 := by
    rw [add_comm]
    exact Polynomial.natDegree_linear_le
  exact MvPolynomial.aeval_natDegree_le p hp _ hcoordinate

/-- Up to degree three the second difference of a polynomial is its second derivative. -/
theorem second_difference {q : Polynomial ℝ} (hq : q.natDegree ≤ 3) :
    (q.eval 1 - q.eval 0) + (q.eval (-1) - q.eval 0) =
      (Polynomial.derivative (Polynomial.derivative q)).eval 0 := by
  have hcoefficients (t : ℝ) : q.eval t =
      q.coeff 0 + q.coeff 1 * t + q.coeff 2 * t ^ 2 + q.coeff 3 * t ^ 3 := by
    rw [Polynomial.eval_eq_sum_range' (Nat.lt_succ_of_le hq)]
    simp [Finset.sum_range_succ]
  have hsecond : (Polynomial.derivative (Polynomial.derivative q)).eval 0 = 2 * q.coeff 2 := by
    rw [← Polynomial.coeff_zero_eq_eval_zero, Polynomial.coeff_derivative,
      Polynomial.coeff_derivative]
    norm_num
    ring
  rw [hsecond, hcoefficients, hcoefficients, hcoefficients]
  ring

/-- What two opposite neighbours have more than a cell: the second derivative along the direction. -/
theorem sum_neighbors_onGrid (hp : p.totalDegree ≤ 3) (x : Cell) (n : Offset) :
    (onGrid p (x + n) - onGrid p x) + (onGrid p (x + -n) - onGrid p x) =
      ∑ i, ∑ j, (n.get i * n.get j : ℝ) * onGrid (pderiv j (pderiv i p)) x := by
  have hhere (q : MvPolynomial Axis ℝ) : (alongLine x n q).eval 0 = onGrid q x := by
    rw [← Int.cast_zero]
    exact eval_alongLine_intCast 0 fun axis => by simp
  have hahead : (alongLine x n p).eval 1 = onGrid p (x + n) := by
    rw [← Int.cast_one]
    exact eval_alongLine_intCast 1 fun axis => by simp
  have hbehind : (alongLine x n p).eval (-1) = onGrid p (x + -n) := by
    rw [← Int.cast_one, ← Int.cast_neg]
    exact eval_alongLine_intCast (-1) fun axis => by simp
  have hsecond : Polynomial.derivative (Polynomial.derivative (alongLine x n p)) =
      ∑ i, Polynomial.C (n.get i : ℝ) *
        ∑ j, Polynomial.C (n.get j : ℝ) * alongLine x n (pderiv j (pderiv i p)) := by
    simp only [derivative_alongLine, Polynomial.derivative_sum, Polynomial.derivative_C_mul]
  rw [← hahead, ← hbehind, ← hhere, second_difference (natDegree_alongLine_le hp), hsecond]
  simp only [Polynomial.eval_finsetSum, Polynomial.eval_mul, Polynomial.eval_C, hhere,
    Finset.mul_sum, mul_assoc]

/-! ### A step of diffusion -/

/-- A step of diffusion adds the Laplacian of a cubic, times the diffusion coefficient. -/
theorem exchanged_onGrid (hp : p.totalDegree ≤ 3) (stencil : Stencil) (D : ℝ) (x : Cell) :
    exchanged stencil D (onGrid p) x = onGrid p x + D * onGrid (laplacian p) x := by
  let second (i j : Axis) : ℝ := onGrid (pderiv j (pderiv i p)) x
  have hsum : (stencil.staggered.map fun direction => exchangeRate stencil D direction.offset *
      ∑ i, ∑ j, (direction.offset.get i * direction.offset.get j : ℝ) * second i j).sum =
      ∑ i, ∑ j, (if i = j then D else 0) * second i j := by
    simp only [← sum_exchangeRate stencil D]
    simp only [Finset.mul_sum, ← sum_list_sum, ← List.sum_map_mul_right, mul_assoc]
  have hlaplacian : onGrid (laplacian p) x = ∑ i, second i i := by
    rw [onGrid, laplacian, map_sum]
    rfl
  rw [exchanged]
  simp only [sum_neighbors_onGrid hp]
  rw [hsum, hlaplacian, Finset.mul_sum]
  simp only [ite_mul, zero_mul, Finset.sum_ite_eq, Finset.mem_univ, if_true]

/-! ### The kernels -/

/-- Fields hold, at every cell, what a kernel writes there. -/
def Collection.HeldBy (kernel : Collection ℝ) (fields : FieldValues ℝ) (b : Bindings ℝ) : Prop :=
  ∀ x writes, kernel.evalAt fields b x = .ok writes →
    ∀ w ∈ writes, fields w.1.field w.1.component (x + w.1.offset) = some w.2

section Kernels

variable {stencil : Stencil} {c v pot j : Field} {d z : Expr ℝ} {fields : FieldValues ℝ}
  {b : Bindings ℝ} {D Z potential : ℝ}

/-- A flux field holds the fluxes of a kernel if each of its components holds those of a direction. -/
theorem Collection.heldBy_iff {kernel : Collection ℝ} {face : Offset → Cell → ℝ}
    (heval : ∀ x, kernel.evalAt fields b x =
      .ok (stencil.staggered.zipIdx.map fun p => (j.location p.2 0, face p.1.offset x))) :
    kernel.HeldBy fields b ↔ ∀ k < stencil.staggered.length, ∀ x,
      fields j.name k x = some (face (stencil.offsetAt k) x) := by
  constructor
  · intro h k hk x
    obtain ⟨direction, hdirection⟩ := Stencil.exists_mem_zipIdx hk
    have hheld := h x _ (heval x) _ (List.mem_map_of_mem hdirection)
    rw [Stencil.offsetAt_of_mem hdirection]
    rwa [Field.location, Cell.add_zero] at hheld
  · intro h x writes hwrites w hw
    obtain rfl := Except.ok.inj ((heval x).symm.trans hwrites)
    obtain ⟨p, hp, rfl⟩ := List.mem_map.1 hw
    have hk : p.2 < stencil.staggered.length := by
      have hlt := List.snd_lt_of_mem_zipIdx hp
      omega
    rw [Field.location, Cell.add_zero, h p.2 hk, Stencil.offsetAt_of_mem hp]

/-- **Diffusion is exact on cubics.**  Without velocity and in a constant potential, with a cubic for
the concentration, the flux has a value at every cell; and where the flux field holds these values, the
update gives every cell its concentration and the Laplacian times the diffusion coefficient. -/
theorem diffusion_of_cubic (c v pot j : Field) (d z : Expr ℝ) (hj : j.kind = .flux stencil)
    (hcomponents : Axis.z.index < v.components) (hp : p.totalDegree ≤ 3)
    (hc : c.HasValues fields (onGrid p)) (hpot : pot.HasValues fields fun _ => potential)
    (hv : ∀ axis : Axis, ∀ y, fields v.name axis.index y = some 0) (hd : d.hasAccess = false)
    (hz : z.hasAccess = false) (hD : ∀ x, d.eval ⟨fields, b, x⟩ = .ok D)
    (hZ : ∀ x, z.eval ⟨fields, b, x⟩ = .ok Z) :
    ∃ flux update, transportFlux c v pot j d z = .ok flux ∧
      concentrationUpdate c pot j d z = .ok update ∧
      (∀ x, ∃ writes, flux.evalAt fields b x = .ok writes) ∧
      (flux.HeldBy fields b → ∀ x, update.evalAt fields b x =
        .ok [(c.centerAccess, onGrid p x + D * onGrid (laplacian p) x)]) := by
  have hflux : transportFlux c v pot j d z = .ok _ := transportFlux_eq hj hcomponents
  have heval (x : Cell) :=
    evalAt_transportFlux_at_rest hj hcomponents hflux hc hpot hv hd hz (hD x) (hZ x)
  have hupdate := FiniteVolume.update_eq ⟨c, diffusionFlux c.center pot.center d z⟩ hj
  refine ⟨_, _, hflux, hupdate, fun x => ⟨_, heval x⟩, fun hheld x => ?_⟩
  have hvalue := FiniteVolume.evalAt_update (v := ⟨c, diffusionFlux c.center pot.center d z⟩) hc
    ((Collection.heldBy_iff heval).1 hheld) hj hupdate b x
  rwa [FiniteVolume.updated_offsetAt, stepped_diffusiveFace, exchanged_onGrid hp] at hvalue

end Kernels

/-! ### A cubic that mixes the axes -/

/-- The cubic `x y z + x² y + z²`. -/
noncomputable def mixedCubic : MvPolynomial Axis ℝ :=
  .X .x * .X .y * .X .z + .X .x * .X .x * .X .y + .X .z * .X .z

theorem totalDegree_mixedCubic : mixedCubic.totalDegree ≤ 3 := by
  have hpair (i j : Axis) : (.X i * .X j : MvPolynomial Axis ℝ).totalDegree ≤ 2 := by
    refine (MvPolynomial.totalDegree_mul _ _).trans ?_
    rw [MvPolynomial.totalDegree_X, MvPolynomial.totalDegree_X]
  have htriple (i j k : Axis) : (.X i * .X j * .X k : MvPolynomial Axis ℝ).totalDegree ≤ 3 := by
    refine (MvPolynomial.totalDegree_mul _ _).trans ?_
    rw [MvPolynomial.totalDegree_X]
    exact Nat.add_le_add_right (hpair i j) 1
  refine (MvPolynomial.totalDegree_add _ _).trans (max_le ?_ ((hpair _ _).trans (by decide)))
  exact (MvPolynomial.totalDegree_add _ _).trans (max_le (htriple _ _ _) (htriple _ _ _))

theorem laplacian_mixedCubic : laplacian mixedCubic = .X .y * 2 + 2 := by
  simp [← one_add_one_eq_two, laplacian, mixedCubic, Axis.sum_univ, Axis.all]

/-- With faces and edges, at the cell with the coordinates one, two and three. -/
theorem diffusion_of_cubic_mixed :
    let c : Field := .scalar "c"
    let j : Field := .flux "j" .d3q19
    let fields : FieldValues ℝ := fun name component y => some <|
      if name = "c" then onGrid mixedCubic y else if name = "phi" then 3
      else if name = "j" then
        diffusiveFace (1 / 2) (onGrid mixedCubic) (Stencil.d3q19.offsetAt component) y
      else 0
    let b : Bindings ℝ := (Bindings.empty.insert "D" (1 / 2)).insert "z" (-1)
    ∃ flux update,
      transportFlux c (.vector "v" 3) (.scalar "phi") j (.real "D") (.real "z") = .ok flux ∧
      concentrationUpdate c (.scalar "phi") j (.real "D") (.real "z") = .ok update ∧
      flux.HeldBy fields b ∧
      update.evalAt fields b ⟨1, 2, 3⟩ = .ok [(c.centerAccess, 17 + 1 / 2 * 6)] := by
  intro c j fields b
  have hc : c.HasValues fields (onGrid mixedCubic) := fun y => rfl
  have hpot : (Field.scalar "phi").HasValues fields fun _ => 3 := fun y => rfl
  have hv (axis : Axis) (y : Cell) : fields "v" axis.index y = some 0 := rfl
  have hD (x : Cell) : (Expr.real "D").eval ⟨fields, b, x⟩ = .ok (1 / 2) := rfl
  have hZ (x : Cell) : (Expr.real "z").eval ⟨fields, b, x⟩ = .ok (-1) := rfl
  obtain ⟨flux, update, hflux, hupdate, -, hvalue⟩ := diffusion_of_cubic c (.vector "v" 3)
    (.scalar "phi") j (.real "D") (.real "z") rfl (by decide) totalDegree_mixedCubic hc hpot hv rfl
    rfl hD hZ
  have hheld : flux.HeldBy fields b := by
    exact (Collection.heldBy_iff fun x => evalAt_transportFlux_at_rest rfl (by decide) hflux hc hpot
      hv rfl rfl (hD x) (hZ x)).2 fun k _ x => rfl
  have hcubic : onGrid mixedCubic ⟨1, 2, 3⟩ = 17 := by
    norm_num [onGrid, mixedCubic, PerAxis.get]
  have hlaplacian : onGrid (laplacian mixedCubic) ⟨1, 2, 3⟩ = 6 := by
    norm_num [laplacian_mixedCubic, onGrid, PerAxis.get]
  refine ⟨flux, update, hflux, hupdate, hheld, ?_⟩
  rw [hvalue hheld, hcubic, hlaplacian]

end Electrokinetics
