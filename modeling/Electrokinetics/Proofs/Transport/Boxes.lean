/-
**A step of advection.**

Every cell is a box of fluid that its velocity displaces.  The parts of a box that land in the 27 cells
around it add up to the box, whatever the velocity, and the flux through a face is what one side sends
over it minus what the other side does.  So the balance of all 26 faces of a cell is what arrives there
from the boxes around it minus what was there: with the stencil of faces, edges and corners nothing of
the displacement is lost.

The update then divides the balance by the effective face area, as it has to for a flux per area.  What
the boxes send is not per area, and so a step moves the fluid only by a fraction of the displacement,
namely the inverse of the face area.

Main definitions:

* `share`, `landed` — the parts of a displaced box;
* `Offset.cube` — the 27 cells around a cell, with itself;
* `moved` — what lands in a cell.

Main results:

* `eval_displacedPart` — the expression for a part of a displaced box;
* `sum_landed` — the parts of a box add up to the box;
* `sum_advectiveFace` — the balance of the faces;
* `advection_step` — both sweeps of a step of advection;
* `advection_step_falls_short` — a step that does not move the boxes.
-/

import Electrokinetics.Proofs.Grid.FaceArea
import Electrokinetics.Proofs.Sweep.Step
import Electrokinetics.Sweep.Profile

set_option relaxedAutoImplicit false
set_option autoImplicit false

namespace Electrokinetics

open Electrokinetics.Expr

/-! ### Parts of a displaced box -/

section Parts

variable {K : Type} [OrderedField K]

/-- The part of an interval of length one, displaced by `a`, that lies `m` intervals further. -/
def share (m : ℤ) (a : K) : K := if m = 0 then 1 - |a| else max 0 (m * a)

/-- The part of a box, displaced by `u`, that lands in the cell at an offset. -/
def landed (m : Offset) (u : PerAxis K) : K :=
  (Axis.all.map fun axis => share (m.get axis) (u.get axis)).prod

theorem landed_eq (m : Offset) (u : PerAxis K) :
    landed m u = share m.x u.x * share m.y u.y * share m.z u.z := by
  simp [landed, Axis.all, PerAxis.get, mul_assoc]

/-- The three parts of an interval add up to the interval. -/
theorem sum_share (a : K) : ([-1, 0, 1].map fun m => share m a).sum = 1 := by
  have hparts : max 0 (-a) + max 0 a = |a| := by
    rcases le_total 0 a with h | h
    · rw [max_eq_left (neg_nonpos.2 h), max_eq_right h, abs_of_nonneg h, zero_add]
    · rw [max_eq_right (neg_nonneg.2 h), max_eq_left h, abs_of_nonpos h, add_zero]
  have hlist : ([-1, 0, 1].map fun m => share m a).sum = max 0 (-a) + (1 - |a| + max 0 a) := by
    simp [share]
  rw [hlist]
  linarith

end Parts

/-! ### The cells around a cell -/

/-- The offsets of the 27 cells around a cell, with itself. -/
def Offset.cube : List Offset :=
  [-1, 0, 1].flatMap fun i => [-1, 0, 1].flatMap fun j => [-1, 0, 1].map fun k => ⟨i, j, k⟩

section Cube

variable {K : Type} [OrderedField K]

/-- Around a cell there is itself, and a pair of cells for each staggered direction. -/
theorem sum_cube (f : Offset → K) :
    (Offset.cube.map f).sum = f 0 +
      (Stencil.d3q27.staggered.map fun direction =>
        f direction.offset + f (-direction.offset)).sum := by
  have hpairs : Offset.cube.Perm (0 :: Stencil.d3q27.staggered.flatMap fun direction =>
      [direction.offset, -direction.offset]) := by
    decide +kernel
  rw [(hpairs.map f).sum_eq, List.map_cons, List.sum_cons, List.map_flatMap, List.flatMap_def,
    List.sum_flatten, List.map_map]
  simp only [Function.comp_def, List.map_cons, List.map_nil, List.sum_cons, List.sum_nil, add_zero]

theorem sum_cube_mul (f g h : ℤ → K) :
    (Offset.cube.map fun m => f m.x * g m.y * h m.z).sum =
      ([-1, 0, 1].map f).sum * ([-1, 0, 1].map g).sum * ([-1, 0, 1].map h).sum := by
  simp [Offset.cube]
  ring

/-- The parts of a displaced box add up to the box. -/
theorem sum_landed (u : PerAxis K) : (Offset.cube.map fun m => landed m u).sum = 1 := by
  simp only [landed_eq]
  rw [sum_cube_mul (fun m => share m u.x) (fun m => share m u.y) fun m => share m u.z, sum_share,
    sum_share, sum_share, one_mul, one_mul]

/-- What lands in a cell from the displaced boxes around it. -/
def moved (C : Cell → K) (V : Cell → PerAxis K) (x : Cell) : K :=
  (Offset.cube.map fun m => C (x + -m) * landed m (V (x + -m))).sum

end Cube

/-! ### The flux through a face -/

section Face

variable {K : Type} [OrderedField K] [Scalar K] [ExactScalar K] {env : Env K} {n m : Offset}
  {u : PerAxis K} {velocity : PerAxis (Expr K)} {sense : K}

theorem eval_motionAlong (hu : ∀ axis, (velocity.get axis).eval env = .ok (u.get axis))
    (hm : ∀ axis, sense * n.get axis = (m.get axis : K)) (axis : Axis) :
    (motionAlong velocity n sense axis).eval env = .ok (m.get axis * u.get axis) := by
  have hnumber : Scalar.mul sense (Scalar.ofInt (n.get axis)) = (m.get axis : K) := by
    rw [ExactScalar.mul_eq, ExactScalar.ofInt_eq, hm]
  rw [motionAlong, hnumber]
  exact eval_mul rfl (hu axis)

/-- The part of a displaced box that lands in a neighbour.  Where the box does not move towards it
along some axis, that axis has no share in the product either. -/
theorem eval_displacedPart (hu : ∀ axis, (velocity.get axis).eval env = .ok (u.get axis))
    (hm : ∀ axis, sense * n.get axis = (m.get axis : K))
    (hzero : ∀ axis, n.get axis = 0 ↔ m.get axis = 0) :
    (displacedPart velocity n sense).eval env = .ok (landed m u) := by
  have hmotion := eval_motionAlong hu hm
  have hnone : (zero : Expr K).eval env = .ok 0 := congrArg Except.ok Scalar.zero_eq
  have hone : (one : Expr K).eval env = .ok 1 := congrArg Except.ok Scalar.one_eq
  have hgates := Cond.eval_and_map fun axis (_ : axis ∈ n.nonzeroAxes) =>
    Cond.eval_gt (hmotion axis) hnone
  refine eval_piecewise hgates ?_
  split
  · rename_i hopen
    -- Every gate is open, so every factor is the share itself.
    refine eval_mul_map fun axis _ => ?_
    split
    · rename_i haxis
      rw [share, if_pos ((hzero axis).1 haxis)]
      exact eval_sub hone (eval_abs (hu axis))
    · rename_i haxis
      have hgate := List.all_eq_true.1 hopen axis (Offset.mem_nonzeroAxes.2 haxis)
      have hpos : 0 < (m.get axis : K) * u.get axis := of_decide_eq_true hgate
      rw [share, if_neg fun h => haxis ((hzero axis).2 h), max_eq_right hpos.le]
      exact hmotion axis
  · rename_i hclosed
    -- The share along the axis of a closed gate is zero.
    obtain ⟨axis, haxis, hgate⟩ := List.all_eq_false.1 (Bool.eq_false_iff.2 hclosed)
    have hnonpos : (m.get axis : K) * u.get axis ≤ 0 := by
      refine not_lt.1 fun hpos => hgate ?_
      exact decide_eq_true hpos
    have hshare : share (m.get axis) (u.get axis) = 0 := by
      rw [share, if_neg fun h => Offset.mem_nonzeroAxes.1 haxis ((hzero axis).2 h),
        max_eq_left hnonpos]
    have hlanded : landed m u = 0 := by
      refine List.prod_eq_zero (List.mem_map.2 ⟨axis, Axis.mem_all axis, hshare⟩)
    rw [hlanded]
    exact hnone

/-- The flux through the face towards `n` sends what lands there and takes what comes back. -/
def advectiveFace (C : Cell → K) (V : Cell → PerAxis K) (n : Offset) (x : Cell) : K :=
  C x * landed n (V x) - C (x + n) * landed (-n) (V (x + n))

theorem eval_advectiveValue {v c : Field} {C : Cell → K} {V : Cell → PerAxis K}
    (hc : c.HasValues env.fields C)
    (hv : ∀ axis : Axis, ∀ y, env.fields v.name axis.index y = some ((V y).get axis)) (n : Offset) :
    (advectiveValue v c n).eval env = .ok (advectiveFace C V n env.cell) := by
  have hvelocity (k : Offset) (axis : Axis) :
      ((velocityAt v k : PerAxis (Expr K)).get axis).eval env =
        .ok ((V (env.cell + k)).get axis) := by
    rw [velocityAt, PerAxis.get_ofFn]
    exact eval_access (hv axis _)
  have hout : (displacedPart (velocityAt v 0) n Scalar.one).eval env =
      .ok (landed n (V env.cell)) := by
    refine eval_displacedPart (fun axis => ?_) (fun axis => ?_) fun axis => Iff.rfl
    · rw [hvelocity, Cell.add_zero]
    · rw [Scalar.one_eq, one_mul]
  have hback : (displacedPart (velocityAt v n) n Scalar.negOne).eval env =
      .ok (landed (-n) (V (env.cell + n))) := by
    refine eval_displacedPart (hvelocity n) (fun axis => ?_) fun axis => ?_
    · rw [Scalar.negOne_eq, PerAxis.get_neg, neg_one_mul, Int.cast_neg]
    · rw [PerAxis.get_neg, neg_eq_zero]
  rw [advectiveFace, mul_comm (C env.cell), mul_comm (C (env.cell + n))]
  exact eval_sub (eval_mul hout hc.eval_center) (eval_mul hback (hc.eval_neighbor n))

end Face

/-! ### The balance of the faces -/

section Balance

variable {K : Type} [OrderedField K]

/-- What the faces of a cell let in, minus what they let out, is what lands in the cell minus what was
there. -/
theorem sum_advectiveFace (C : Cell → K) (V : Cell → PerAxis K) (x : Cell) :
    (Stencil.d3q27.staggered.map fun direction =>
      advectiveFace C V direction.offset (x + -direction.offset) -
        advectiveFace C V direction.offset x).sum = moved C V x - C x := by
  -- What a cell gets from behind `m`, less what it sends along `m`.
  let gain (m : Offset) : K := C (x + -m) * landed m (V (x + -m)) - C x * landed m (V x)
  have hrest : gain 0 = 0 := by
    have hneg : x + -(0 : Offset) = x := Cell.add_zero x
    simp only [gain, hneg, sub_self]
  have hface (n : Offset) : advectiveFace C V n (x + -n) - advectiveFace C V n x =
      gain n + gain (-n) := by
    have hneg : -(-n) = n := by
      ext axis
      simp
    simp only [advectiveFace, gain, Cell.add_neg_add, hneg]
    ring
  have hall : (Offset.cube.map gain).sum = moved C V x - C x := by
    have hsent : (Offset.cube.map fun m => C x * landed m (V x)).sum = C x := by
      rw [List.sum_map_mul_left, sum_landed, mul_one]
    rw [eq_sub_iff_add_eq, ← hsent, ← List.sum_map_add, moved]
    simp only [gain, sub_add_cancel]
  rw [← hall, sum_cube, hrest, zero_add]
  simp only [hface]

end Balance

/-! ### Both sweeps -/

/-- What a store holds repeats with the domain, also as seen from some distance. -/
theorem Store.periodic_of_get? {K : Type} {domain : Domain} {s : Store K domain} {field : String}
    {component : ℕ} {u : Cell → K} (h : ∀ x, s.get? field component x = some (u x)) (x n : Cell) :
    u (domain.foldCell x + n) = u (x + n) := by
  rw [← Store.apply_foldCell h, domain.foldCell_foldCell_add, Store.apply_foldCell h]

theorem Store.periodic_of_velocity {K : Type} {domain : Domain} {s : Store K domain}
    {velocity : String} {V : Cell → PerAxis K}
    (h : ∀ axis : Axis, ∀ x, s.get? velocity axis.index x = some ((V x).get axis)) (x n : Cell) :
    V (domain.foldCell x + n) = V (x + n) := by
  ext axis
  exact periodic_of_get? (u := fun y => (V y).get axis) (h axis) x n

/-- Where the fields repeat with the domain, so does what crosses a face. -/
theorem advectiveFace_foldCell {K : Type} [OrderedField K] {domain : Domain} {C : Cell → K}
    {V : Cell → PerAxis K} (hC : ∀ x n : Cell, C (domain.foldCell x + n) = C (x + n))
    (hV : ∀ x n : Cell, V (domain.foldCell x + n) = V (x + n)) (n : Offset) (x : Cell) :
    advectiveFace C V n (domain.foldCell x) = advectiveFace C V n x := by
  have hC₀ := hC x 0
  have hV₀ := hV x 0
  rw [Cell.add_zero, Cell.add_zero] at hC₀ hV₀
  rw [advectiveFace, advectiveFace, hC, hV, hC₀, hV₀]

section Step

variable {K : Type} [OrderedField K] [Scalar K] [ExactScalar K] {domain : Domain}
  {s : Store K domain} {j v c : Field} {C : Cell → K} {V : Cell → PerAxis K}

/-- Both sweeps of a step of advection with any stencil, and what they leave. -/
theorem exists_advection_sweeps {stencil : Stencil} (hj : j.kind = .flux stencil)
    (hcomponents : Axis.z.index < v.components) (hname : c.name ≠ j.name) (hC : c.HasValues s.get? C)
    (hV : ∀ axis : Axis, ∀ x, s.get? v.name axis.index x = some ((V x).get axis))
    (flux : PerAxis (Expr K)) (b : Bindings K) :
    ∃ advective update s₁ s₂, advectiveFlux j v c = .ok advective ∧
      FiniteVolume.update ⟨c, flux⟩ j = .ok update ∧
      advective.sweepInterior s b = .ok s₁ ∧ update.sweepInterior s₁ b = .ok s₂ ∧
      ∀ x, s₂.get? c.name 0 x =
        some (FiniteVolume.stepped stencil C (advectiveFace C V) x) := by
  have hface : ∀ direction ∈ stencil.staggered, ∀ x,
      (advectiveValue v c direction.offset).eval ⟨s.get?, b, x⟩ =
        .ok (advectiveFace C V direction.offset x) := fun direction _ _ =>
    eval_advectiveValue hC hV direction.offset
  obtain ⟨update, s₁, s₂, hupdate, hs₁, hs₂, hvalue⟩ :=
    FiniteVolume.exists_step (v := ⟨c, flux⟩) hj hname hC hface
      (advectiveFace_foldCell (Store.periodic_of_get? hC) (Store.periodic_of_velocity hV))
  exact ⟨_, update, s₁, s₂, advectiveFlux_eq hj hcomponents, hupdate, hs₁, hs₂, hvalue⟩

theorem exists_advection_step (hj : j.kind = .flux .d3q27) (hcomponents : Axis.z.index < v.components)
    (hname : c.name ≠ j.name) (hC : c.HasValues s.get? C)
    (hV : ∀ axis : Axis, ∀ x, s.get? v.name axis.index x = some ((V x).get axis))
    (flux : PerAxis (Expr K)) (b : Bindings K) :
    ∃ advective update s₁ s₂, advectiveFlux j v c = .ok advective ∧
      FiniteVolume.update ⟨c, flux⟩ j = .ok update ∧
      advective.sweepInterior s b = .ok s₁ ∧ update.sweepInterior s₁ b = .ok s₂ ∧
      ∀ x, domain.isInterior x → s₂.get? c.name 0 x =
        some (C x + (moved C V x - C x) * Scalar.div Scalar.one (Stencil.faceArea .d3q27)) := by
  obtain ⟨advective, update, s₁, s₂, hadvective, hupdate, hs₁, hs₂, hvalue⟩ :=
    exists_advection_sweeps hj hcomponents hname hC hV flux b
  refine ⟨advective, update, s₁, s₂, hadvective, hupdate, hs₁, hs₂, fun x _ => ?_⟩
  rw [hvalue, FiniteVolume.stepped, sum_advectiveFace]

end Step

/-! ### Fluid that drifts on a narrow domain -/

/-- Fluid on a narrow domain, more of it further along z, that moves by one cell along z. -/
noncomputable def driftingStore : Store ℝ .narrow :=
  (Store.empty.fillWith "c" 0 fun x => (x.z : ℝ)).fillVelocity "v" ⟨0, 0, 1⟩

theorem hasValues_driftingStore :
    (Field.scalar "c").HasValues driftingStore.get? fun x => (Domain.narrow.foldCell x).z := by
  intro x
  simp [driftingStore, Store.fillVelocity, Axis.all, Store.fill, Store.get?_fillWith, Field.scalar]

theorem get?_driftingStore_velocity (axis : Axis) (x : Cell) :
    driftingStore.get? "v" axis.index x = some ((⟨0, 0, 1⟩ : PerAxis ℝ).get axis) := by
  cases axis <;>
    simp [driftingStore, Store.fillVelocity, Axis.all, Store.fill, Store.get?_fillWith, Axis.index,
      PerAxis.get]

/-! ### The fraction of a displacement -/

/-- **A step of advection** with faces, edges and corners, on any periodic domain and with any
velocities: both sweeps succeed, and the fluid moves by the inverse of the face area times what the
displacement of the boxes would move. -/
theorem advection_step {domain : Domain} (s : Store ℝ domain) (b : Bindings ℝ) (j v c : Field)
    (flux : PerAxis (Expr ℝ)) (hj : j.kind = .flux .d3q27)
    (hcomponents : Axis.z.index < v.components) (hname : c.name ≠ j.name) {C : Cell → ℝ}
    {V : Cell → PerAxis ℝ} (hC : c.HasValues s.get? C)
    (hV : ∀ axis : Axis, ∀ x, s.get? v.name axis.index x = some ((V x).get axis)) :
    ∃ advective update s₁ s₂, advectiveFlux j v c = .ok advective ∧
      FiniteVolume.update ⟨c, flux⟩ j = .ok update ∧
      advective.sweepInterior s b = .ok s₁ ∧ update.sweepInterior s₁ b = .ok s₂ ∧
      ∀ x, domain.isInterior x → s₂.get? c.name 0 x =
        some (C x + (moved C V x - C x) / (1 + 2 * √2 + 4 / 3 * √3)) := by
  obtain ⟨advective, update, s₁, s₂, hadvective, hupdate, hs₁, hs₂, hvalue⟩ :=
    exists_advection_step hj hcomponents hname hC hV flux b
  refine ⟨advective, update, s₁, s₂, hadvective, hupdate, hs₁, hs₂, fun x hx => ?_⟩
  rw [hvalue x hx, ExactScalar.div_eq, Scalar.one_eq, Stencil.faceArea_d3q27, mul_one_div]

theorem advection_step_drifting :
    ∃ advective update s₁ s₂,
      advectiveFlux (.flux "j" .d3q27) (.vector "v" 3) (.scalar "c") = .ok advective ∧
      FiniteVolume.update ⟨.scalar "c", gradient (.num (1 : ℝ))⟩ (.flux "j" .d3q27) = .ok update ∧
      advective.sweepInterior driftingStore ∅ = .ok s₁ ∧ update.sweepInterior s₁ ∅ = .ok s₂ ∧
      ∀ x, Domain.narrow.isInterior x → s₂.get? "c" 0 x =
        some ((Domain.narrow.foldCell x).z +
          (moved (fun y => ((Domain.narrow.foldCell y).z : ℝ)) (fun _ => ⟨0, 0, 1⟩) x -
            (Domain.narrow.foldCell x).z) / (1 + 2 * √2 + 4 / 3 * √3)) :=
  advection_step driftingStore ∅ (.flux "j" .d3q27) (.vector "v" 3) (.scalar "c") _ rfl (by decide)
    (by decide) hasValues_driftingStore get?_driftingStore_velocity

/-- A displacement by a whole cell should bring to the origin all that the cell behind it holds, and
brings only a fraction of it. -/
theorem advection_step_falls_short :
    (Field.scalar "c").HasValues driftingStore.get? (fun x => (Domain.narrow.foldCell x).z) ∧
    (∀ (axis : Axis) (x : Cell), driftingStore.get? "v" axis.index x =
      some ((⟨0, 0, 1⟩ : PerAxis ℝ).get axis)) ∧
    (∀ axis, |(⟨0, 0, 1⟩ : PerAxis ℝ).get axis| ≤ 1) ∧
    ∃ advective update s₁ s₂,
      advectiveFlux (.flux "j" .d3q27) (.vector "v" 3) (.scalar "c") = .ok advective ∧
      FiniteVolume.update ⟨.scalar "c", gradient (.num (1 : ℝ))⟩ (.flux "j" .d3q27) = .ok update ∧
      advective.sweepInterior driftingStore ∅ = .ok s₁ ∧ update.sweepInterior s₁ ∅ = .ok s₂ ∧
      s₂.get? "c" 0 0 ≠ some (moved (fun y => ((Domain.narrow.foldCell y).z : ℝ))
        (fun _ => ⟨0, 0, 1⟩) 0) := by
  refine ⟨hasValues_driftingStore, get?_driftingStore_velocity, fun axis => ?_, ?_⟩
  · cases axis <;> simp [PerAxis.get]
  obtain ⟨advective, update, s₁, s₂, hadvective, hupdate, hs₁, hs₂, hvalue⟩ :=
    exists_advection_step (j := .flux "j" .d3q27) (v := .vector "v" 3) rfl (by decide) (by decide)
      hasValues_driftingStore get?_driftingStore_velocity (gradient (.num (1 : ℝ))) ∅
  refine ⟨advective, update, s₁, s₂, hadvective, hupdate, hs₁, hs₂, ?_⟩
  -- The origin is empty, and the layer behind it holds two.
  have hmoved : moved (fun y => ((Domain.narrow.foldCell y).z : ℝ)) (fun _ => ⟨0, 0, 1⟩) 0 = 2 := by
    have hbehind : (Domain.narrow.foldCell (0 + -⟨0, 0, 1⟩)).z = 2 := by decide
    simp [moved, Offset.cube, landed_eq, share, hbehind]
  have hempty : (Domain.narrow.foldCell 0).z = 0 := by decide
  have horigin := hvalue 0 (by decide)
  rw [hmoved, hempty, Int.cast_zero, sub_zero, zero_add, ExactScalar.div_eq, Scalar.one_eq,
    mul_one_div] at horigin
  intro h
  have hall : 2 / Stencil.faceArea .d3q27 = (2 : ℝ) :=
    Option.some.inj (horigin.symm.trans (h.trans (congrArg some hmoved)))
  have harea : (1 : ℝ) < Stencil.faceArea .d3q27 := Stencil.one_lt_faceArea (by decide)
  exact (div_lt_self two_pos harea).ne hall

end Electrokinetics
