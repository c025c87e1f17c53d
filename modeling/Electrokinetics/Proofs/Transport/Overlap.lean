/-
**What crosses a face is a volume.**

A cell is a box of length one along every axis, and its velocity displaces the box.  The kernel never
speaks of volumes: along an axis of the face it takes the distance that the box moves, behind a gate for
its sense, along any other axis the length that stays, and it multiplies these.  Along one axis this is
the length that the displaced interval shares with the interval it may land in, as long as it moves by
at most its own length, and a volume that boxes share is the product of such lengths.  So the flux is the
volume that lands in the neighbour, times the concentration, minus the volume that comes back.

Main definitions:

* `box`, `overlap` — a displaced box, and the volume that it shares with a cell;
* `sharedLength` — the same for intervals.

Main results:

* `overlap_eq_prod` — a volume as a product of lengths;
* `landed_eq_overlap` — the part of a box that lands in a cell;
* `advectiveFlux_overlap` — the flux through every face.
-/

import Electrokinetics.Proofs.Grid.Moments
import Electrokinetics.Proofs.Transport.Boxes
import Mathlib.MeasureTheory.Measure.Lebesgue.Basic
import Mathlib.MeasureTheory.Measure.Real

set_option relaxedAutoImplicit false
set_option autoImplicit false

namespace Electrokinetics

open MeasureTheory

/-! ### Intervals and boxes -/

/-- The length that the interval from `a` to `a + 1` shares with the one from `m` to `m + 1`. -/
noncomputable def sharedLength (a : ℝ) (m : ℤ) : ℝ :=
  volume.real (Set.Icc a (a + 1) ∩ Set.Icc (m : ℝ) (m + 1))

/-- The box of length one along every axis, displaced by `u`. -/
def box (u : PerAxis ℝ) : Set (Axis → ℝ) := Set.Icc u.get fun axis => u.get axis + 1

/-- The volume that the box displaced by `u` shares with the cell at an offset. -/
noncomputable def overlap (u : PerAxis ℝ) (m : Offset) : ℝ :=
  volume.real (box u ∩ box (m.map fun i : ℤ => (i : ℝ)))

theorem sharedLength_eq (a : ℝ) (m : ℤ) :
    sharedLength a m = max (min (a + 1) (m + 1) - max a m) 0 := by
  rw [sharedLength, Set.Icc_inter_Icc, Real.volume_real_Icc]

theorem overlap_eq_prod (u : PerAxis ℝ) (m : Offset) :
    overlap u m = ∏ axis, sharedLength (u.get axis) (m.get axis) := by
  have hbox : box u ∩ box (m.map fun i : ℤ => (i : ℝ)) = Set.univ.pi fun axis =>
      Set.Icc (u.get axis) (u.get axis + 1) ∩ Set.Icc (m.get axis : ℝ) (m.get axis + 1) := by
    rw [Set.pi_inter_distrib, Set.pi_univ_Icc, Set.pi_univ_Icc]
    have hget : (m.map fun i : ℤ => (i : ℝ)).get = fun axis => (m.get axis : ℝ) :=
      funext fun axis => PerAxis.get_map _ _ axis
    rw [box, box, hget]
  rw [overlap, hbox, measureReal_def, volume_pi_pi, ENNReal.toReal_prod]
  rfl

theorem overlap_nonneg (u : PerAxis ℝ) (m : Offset) : 0 ≤ overlap u m := measureReal_nonneg

/-! ### The parts of a displaced box -/

/-- What the kernel computes along an axis is a shared length, as long as the displacement is at most
the length of a cell. -/
theorem share_eq_sharedLength {a : ℝ} (ha : |a| ≤ 1) {m : ℤ} (hm : m = -1 ∨ m = 0 ∨ m = 1) :
    share m a = sharedLength a m := by
  obtain ⟨hlower, hupper⟩ := abs_le.1 ha
  rw [sharedLength_eq]
  rcases hm with rfl | rfl | rfl
  · have hend : min (a + 1) (((-1 : ℤ) : ℝ) + 1) = 0 := by
      rw [Int.cast_neg, Int.cast_one, neg_add_cancel]
      exact min_eq_right (by linarith)
    have hstart : max a ((-1 : ℤ) : ℝ) = a := by
      rw [Int.cast_neg, Int.cast_one]
      exact max_eq_left hlower
    rw [hend, hstart, share, if_neg (by decide), max_comm, Int.cast_neg, Int.cast_one, neg_one_mul,
      zero_sub]
  · rw [share, if_pos rfl, Int.cast_zero, zero_add]
    rcases le_total 0 a with h | h
    · rw [abs_of_nonneg h, min_eq_right (by linarith), max_eq_left h, max_eq_left (by linarith)]
    · rw [abs_of_nonpos h, min_eq_left (by linarith), max_eq_right h, max_eq_left (by linarith)]
      ring
  · have hend : min (a + 1) (((1 : ℤ) : ℝ) + 1) = a + 1 := by
      rw [Int.cast_one]
      exact min_eq_left (by linarith)
    have hstart : max a ((1 : ℤ) : ℝ) = 1 := by
      rw [Int.cast_one]
      exact max_eq_right hupper
    rw [hend, hstart, share, if_neg (by decide), max_comm, Int.cast_one, one_mul, add_sub_cancel_right]

theorem Offset.get_of_mem_cube {m : Offset} (h : m ∈ Offset.cube) (axis : Axis) :
    m.get axis = -1 ∨ m.get axis = 0 ∨ m.get axis = 1 := by
  have hall : ∀ m ∈ Offset.cube, ∀ axis, m.get axis = -1 ∨ m.get axis = 0 ∨ m.get axis = 1 := by
    decide
  exact hall m h axis

/-- The part of a displaced box that lands in a cell is the volume that the two share. -/
theorem landed_eq_overlap {u : PerAxis ℝ} (hu : ∀ axis, |u.get axis| ≤ 1) {m : Offset}
    (hm : m ∈ Offset.cube) : landed m u = overlap u m := by
  rw [overlap_eq_prod, Axis.prod_univ, landed]
  refine congrArg List.prod (List.map_congr_left fun axis _ => ?_)
  exact share_eq_sharedLength (hu axis) (Offset.get_of_mem_cube hm axis)

/-- The volumes that a displaced box shares with the 27 cells around it add up to its own. -/
theorem sum_overlap {u : PerAxis ℝ} (hu : ∀ axis, |u.get axis| ≤ 1) :
    (Offset.cube.map fun m => overlap u m).sum = 1 := by
  rw [← sum_landed u]
  exact congrArg List.sum (List.map_congr_left fun m hm => (landed_eq_overlap hu hm).symm)

theorem Stencil.mem_cube {stencil : Stencil} {direction : Direction}
    (h : direction ∈ stencil.staggered) :
    direction.offset ∈ Offset.cube ∧ -direction.offset ∈ Offset.cube := by
  have hall : ∀ direction ∈ d3q27.staggered,
      direction.offset ∈ Offset.cube ∧ -direction.offset ∈ Offset.cube := by
    decide
  exact hall direction (stencil.staggered_sublist.subset h)

/-! ### The flux through a face -/

/-- **The advective flux is an overlap of boxes**: the flux is built for every field with faces, and
the assignment of each staggered direction has as its value the volume that lands in the neighbour, times
the concentration, minus the volume that comes back, wherever the boxes of the two cells move by at most
one cell along every axis.  Such a volume is the product of the lengths that are shared along the axes;
it is not negative, and the volumes in all cells around a box add up to one. -/
theorem advectiveFlux_overlap (j v c : Field) {stencil : Stencil} (hj : j.kind = .flux stencil)
    (hcomponents : Axis.z.index < v.components) :
    (∃ flux : Collection ℝ, advectiveFlux j v c = .ok flux ∧ flux.subexpressions = [] ∧
      flux.main.length = stencil.staggered.length ∧
      ∀ k direction, stencil.staggered[k]? = some direction →
        ∃ a, flux.main[k]? = some a ∧ a.target = j.location k 0 ∧
          ∀ (env : Env ℝ) (C : Cell → ℝ) (V : Cell → PerAxis ℝ), c.HasValues env.fields C →
            (∀ axis : Axis, ∀ y, env.fields v.name axis.index y = some ((V y).get axis)) →
            (∀ axis, |(V env.cell).get axis| ≤ 1) →
            (∀ axis, |(V (env.cell + direction.offset)).get axis| ≤ 1) →
            a.value.eval env = .ok (C env.cell * overlap (V env.cell) direction.offset -
              C (env.cell + direction.offset) *
                overlap (V (env.cell + direction.offset)) (-direction.offset))) ∧
    (∀ u m, overlap u m = ∏ axis, sharedLength (u.get axis) (m.get axis)) ∧
    ∀ u : PerAxis ℝ, (∀ axis, |u.get axis| ≤ 1) →
      (∀ m ∈ Offset.cube, 0 ≤ overlap u m) ∧ (Offset.cube.map fun m => overlap u m).sum = 1 := by
  refine ⟨⟨_, advectiveFlux_eq hj hcomponents, rfl, Collection.length_main_ofFaces,
    fun k direction hk => ?_⟩, overlap_eq_prod, fun u hu => ⟨fun m _ => overlap_nonneg u m,
    sum_overlap hu⟩⟩
  obtain ⟨hthere, hback⟩ := Stencil.mem_cube (List.mem_of_getElem? hk)
  refine ⟨_, Collection.getElem?_main_ofFaces hk, rfl, fun env C V hC hV hhere hneighbor => ?_⟩
  rw [eval_advectiveValue hC hV, advectiveFace, landed_eq_overlap hhere hthere,
    landed_eq_overlap hneighbor hback]

/-- The corner between the origin and its neighbour at `-x + y - z`, where both boxes move towards each
other and one of them by a whole cell. -/
theorem advectiveFlux_overlap_corner :
    let C (y : Cell) : ℝ := if y = 0 then 4 else 1
    let V (y : Cell) : PerAxis ℝ := if y = 0 then ⟨-1 / 2, 1, -1 / 4⟩ else ⟨1 / 2, -1 / 3, 1⟩
    let env : Env ℝ := ⟨fun name component y => some (if name = "c" then C y
      else ((Axis.ofIndex? component).map (V y).get).getD 0), ∅, 0⟩
    ∃ flux a, advectiveFlux (.flux "j" .d3q27) (.vector "v" 3) (.scalar "c") = .ok flux ∧
      flux.main[10]? = some a ∧ a.target = ⟨"j", 10, 0⟩ ∧
      a.value.eval env = .ok (4 * (1 / 8) - 1 * (1 / 6)) := by
  intro C V env
  let n : Offset := ⟨-1, 1, -1⟩
  have hV (axis : Axis) (y : Cell) : env.fields "v" axis.index y = some ((V y).get axis) := by
    cases axis <;> rfl
  have hhere : V 0 = ⟨-1 / 2, 1, -1 / 4⟩ := if_pos rfl
  have hthere : V (0 + n) = ⟨1 / 2, -1 / 3, 1⟩ := if_neg (by decide)
  obtain ⟨⟨flux, hflux, -, -, hfaces⟩, -, -⟩ := advectiveFlux_overlap (.flux "j" .d3q27)
    (.vector "v" 3) (.scalar "c") rfl (by decide)
  obtain ⟨a, ha, htarget, hvalue⟩ := hfaces 10 ⟨"BNW", n⟩ rfl
  have hslow (axis : Axis) : |(V 0).get axis| ≤ 1 ∧ |(V (0 + n)).get axis| ≤ 1 := by
    rw [hhere, hthere]
    cases axis <;> norm_num [PerAxis.get, abs_le]
  have hout : overlap (V 0) n = 1 / 8 := by
    rw [hhere, overlap_eq_prod, Axis.prod_univ]
    norm_num [Axis.all, PerAxis.get, sharedLength_eq, n]
  have hback : overlap (V (0 + n)) (-n) = 1 / 6 := by
    have hneg : -n = ⟨1, -1, 1⟩ := rfl
    rw [hthere, hneg, overlap_eq_prod, Axis.prod_univ]
    norm_num [Axis.all, PerAxis.get, sharedLength_eq]
  have hcorner := hvalue env C V (fun y => rfl) hV (fun axis => (hslow axis).1)
    fun axis => (hslow axis).2
  have hC : C 0 = 4 ∧ C (0 + n) = 1 := ⟨if_pos rfl, if_neg (by decide)⟩
  refine ⟨flux, a, hflux, ha, htarget, hcorner.trans ?_⟩
  rw [← hout, ← hback, ← hC.1, ← hC.2]

end Electrokinetics
