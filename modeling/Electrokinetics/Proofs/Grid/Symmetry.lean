/-
**Symmetries of the periodic grid.**

A symmetry turns every axis into an axis, keeping or reversing its sense, and takes the origin to some
cell.  It takes cells to cells and offsets to offsets, and along with the cells it turns the domain: an
axis that is turned into another one takes its extent along.  Cells that stand for one interior cell
still do so afterwards, and the lengths of offsets stay.  The neighbours of a cell are the offsets up to
some length, so a symmetry permutes them, although it takes staggered directions to directions that are
not.

Main definitions:

* `GridSymmetry` — the symmetries;
* `GridSymmetry.turn`, `GridSymmetry.cell`, `GridSymmetry.preimage` — offsets and other triples, cells,
  and the cell that comes to a given one;
* `Domain.turned` — the domain after a symmetry.

Main results:

* `GridSymmetry.cell_add`, `GridSymmetry.cell_preimage` — a symmetry of all cells;
* `Domain.foldCell_preimage` — folding before and after;
* `Stencil.mem_offsets_iff` — the neighbours by their lengths;
* `Stencil.sum_offsets_turn`, `Stencil.sum_offsets` — sums over all neighbours.
-/

import Electrokinetics.Grid.Stencil
import Electrokinetics.Proofs.Grid.Translation
import Mathlib.Algebra.BigOperators.Group.List.Basic
import Mathlib.Data.Int.ModEq
import Mathlib.Data.Int.Order.Units
import Mathlib.Data.List.Nodup
import Mathlib.Data.List.Perm.Subperm
import Mathlib.Tactic.Linarith
import Mathlib.Tactic.Ring

set_option relaxedAutoImplicit false
set_option autoImplicit false

namespace Electrokinetics

/-- A symmetry of the periodic grid. -/
structure GridSymmetry where
  /-- The axis that an axis is turned into. -/
  axis : Equiv.Perm Axis
  /-- Whether an axis keeps its sense (`1`) or is reversed (`-1`). -/
  sign : Axis → ℤˣ
  /-- The cell that the origin comes to. -/
  origin : Cell

namespace GridSymmetry

variable (g : GridSymmetry) {R : Type} [Ring R]

/-! ### Triples and cells -/

/-- What a triple of components becomes. -/
def turn (u : PerAxis R) : PerAxis R :=
  PerAxis.ofFn fun axis => ((g.sign (g.axis.symm axis) : ℤ) : R) * u.get (g.axis.symm axis)

/-- The cell that a cell comes to. -/
def cell (x : Cell) : Cell := g.turn x + g.origin

/-- The cell that comes to a cell. -/
def preimage (y : Cell) : Cell :=
  PerAxis.ofFn fun axis => g.sign axis * (y.get (g.axis axis) - g.origin.get (g.axis axis))

@[simp] theorem get_turn (u : PerAxis R) (axis : Axis) :
    (g.turn u).get (g.axis axis) = ((g.sign axis : ℤ) : R) * u.get axis := by
  rw [turn, PerAxis.get_ofFn, Equiv.symm_apply_apply]

/-- Triples are the same if they are along all turned axes. -/
theorem ext_axis {α : Type} {u w : PerAxis α} (h : ∀ axis, u.get (g.axis axis) = w.get (g.axis axis)) :
    u = w := by
  refine PerAxis.ext_get fun axis => ?_
  rw [← g.axis.apply_symm_apply axis]
  exact h _

theorem turn_neg (u : PerAxis R) : g.turn (-u) = -g.turn u := by
  refine g.ext_axis fun axis => ?_
  simp only [PerAxis.get_neg, get_turn, mul_neg]

@[simp] theorem get_cell (x : Cell) (axis : Axis) :
    (g.cell x).get (g.axis axis) = g.sign axis * x.get axis + g.origin.get (g.axis axis) := by
  rw [cell, PerAxis.get_add, get_turn, Int.cast_id]

/-- A step from a cell becomes the turned step from the cell that it comes to. -/
theorem cell_add (x n : Cell) : g.cell (x + n) = g.cell x + g.turn n := by
  refine g.ext_axis fun axis => ?_
  simp only [PerAxis.get_add, get_cell, get_turn, Int.cast_id]
  ring

@[simp] theorem cell_preimage (y : Cell) : g.cell (g.preimage y) = y := by
  refine g.ext_axis fun axis => ?_
  rw [get_cell, preimage, PerAxis.get_ofFn, ← mul_assoc, Int.units_coe_mul_self, one_mul, sub_add_cancel]

@[simp] theorem preimage_cell (x : Cell) : g.preimage (g.cell x) = x := by
  refine PerAxis.ext_get fun axis => ?_
  rw [preimage, PerAxis.get_ofFn, get_cell, add_sub_cancel_right, ← mul_assoc,
    Int.units_coe_mul_self, one_mul]

/-! ### Axes and lengths -/

theorem perm_axis : (Axis.all.map g.axis).Perm Axis.all := by
  refine (List.perm_ext_iff_of_nodup (List.Nodup.map g.axis.injective (by decide)) (by decide)).2 ?_
  intro axis
  refine iff_of_true (List.mem_map.2 ⟨g.axis.symm axis, Axis.mem_all _, ?_⟩) (Axis.mem_all axis)
  exact g.axis.apply_symm_apply axis

/-- A product over all axes does not change when the axes are turned. -/
theorem prod_axis {M : Type} [CommMonoid M] (f : Axis → M) :
    (Axis.all.map fun axis => f (g.axis axis)).prod = (Axis.all.map f).prod := by
  rw [← (g.perm_axis.map f).prod_eq, List.map_map]
  rfl

theorem normSq_turn (n : Offset) : Offset.normSq (g.turn n) = n.normSq := by
  have hsum (m : Offset) :
      m.normSq = (Axis.all.map fun axis => m.get axis * m.get axis).sum := by
    simp [Offset.normSq, Axis.all, PerAxis.get, add_assoc]
  have hsquare (axis : Axis) :
      (g.turn n).get (g.axis axis) * (g.turn n).get (g.axis axis) = n.get axis * n.get axis := by
    rw [get_turn, Int.cast_id, mul_mul_mul_comm, Int.units_coe_mul_self, one_mul]
  rw [hsum, hsum, ← (g.perm_axis.map _).sum_eq, List.map_map]
  exact congrArg List.sum (List.map_congr_left fun axis _ => hsquare axis)

theorem turn_injective : Function.Injective (g.turn : Offset → Offset) := by
  intro m n h
  refine PerAxis.ext_get fun axis => ?_
  have haxis := congrArg (fun u : Offset => (g.sign axis : ℤ) * u.get (g.axis axis)) h
  simpa only [get_turn, Int.cast_id, ← mul_assoc, Int.units_coe_mul_self, one_mul] using haxis

end GridSymmetry

/-! ### The turned domain -/

namespace Domain

variable (d : Domain) (g : GridSymmetry)

theorem count_turned : Shape.count (PerAxis.ofFn fun axis => d.extent.get (g.axis.symm axis)) =
    d.extent.count := by
  have hcount (s : Shape) : s.count = (Axis.all.map s.get).prod := by
    simp [Shape.count, Axis.all, PerAxis.get, mul_assoc]
  rw [hcount, hcount, ← g.prod_axis]
  simp only [PerAxis.get_ofFn, Equiv.symm_apply_apply]

/-- The domain after a symmetry: every axis takes its extent along. -/
def turned : Domain where
  extent := PerAxis.ofFn fun axis => d.extent.get (g.axis.symm axis)
  pos axis := by
    rw [PerAxis.get_ofFn]
    exact d.pos _
  le_maxLength axis := by
    rw [PerAxis.get_ofFn]
    exact d.le_maxLength _
  count_lt := by
    rw [count_turned]
    exact d.count_lt

theorem extent_turned (axis : Axis) : (d.turned g).extent.get (g.axis axis) = d.extent.get axis := by
  rw [turned, PerAxis.get_ofFn, Equiv.symm_apply_apply]

/-- Cells that stand for one cell of the turned domain come from cells that stand for one cell. -/
theorem foldCell_preimage (y : Cell) :
    d.foldCell (g.preimage ((d.turned g).foldCell y)) = d.foldCell (g.preimage y) := by
  refine d.foldCell_eq_foldCell_iff.2 fun axis => ?_
  have hfold : ((d.turned g).foldCell y).get (g.axis axis) ≡ y.get (g.axis axis)
      [ZMOD d.extent.get axis] := by
    rw [foldCell, PerAxis.get_mapAxis, fold, extent_turned]
    exact Int.mod_modEq _ _
  rw [GridSymmetry.preimage, GridSymmetry.preimage, PerAxis.get_ofFn, PerAxis.get_ofFn]
  exact (hfold.sub_right _).mul_left _

end Domain

/-! ### Sums over all neighbours -/

namespace Stencil

/-- The square of the length of the longest directions. -/
def reachSq : Stencil → ℤ
  | d3q7 => 1
  | d3q19 => 2
  | d3q27 => 3

/-- The offsets of all neighbours. -/
def offsets (s : Stencil) : List Offset := s.directions.map Direction.offset

theorem nodup_offsets (s : Stencil) : s.offsets.Nodup := by
  cases s <;> decide

/-- The neighbours are the offsets up to some length, without the cell itself. -/
theorem mem_offsets_iff {s : Stencil} {n : Offset} :
    n ∈ s.offsets ↔ 0 < n.normSq ∧ n.normSq ≤ s.reachSq := by
  constructor
  · have hall : ∀ n ∈ s.offsets, 0 < n.normSq ∧ n.normSq ≤ s.reachSq := by
      cases s <;> decide
    exact hall n
  · rintro ⟨hpos, hle⟩
    -- No component of an offset of length at most √3 is beyond one.
    have hreach : s.reachSq ≤ 3 := by cases s <;> decide
    obtain ⟨x, y, z⟩ := n
    simp only [Offset.normSq] at hpos hle
    have hx : x = -1 ∨ x = 0 ∨ x = 1 := by
      have hlower : -2 < x := by nlinarith [mul_self_nonneg y, mul_self_nonneg z]
      have hupper : x < 2 := by nlinarith [mul_self_nonneg y, mul_self_nonneg z]
      omega
    have hy : y = -1 ∨ y = 0 ∨ y = 1 := by
      have hlower : -2 < y := by nlinarith [mul_self_nonneg x, mul_self_nonneg z]
      have hupper : y < 2 := by nlinarith [mul_self_nonneg x, mul_self_nonneg z]
      omega
    have hz : z = -1 ∨ z = 0 ∨ z = 1 := by
      have hlower : -2 < z := by nlinarith [mul_self_nonneg x, mul_self_nonneg y]
      have hupper : z < 2 := by nlinarith [mul_self_nonneg x, mul_self_nonneg y]
      omega
    revert hpos hle
    rcases hx with rfl | rfl | rfl <;> rcases hy with rfl | rfl | rfl <;>
      rcases hz with rfl | rfl | rfl <;> cases s <;> decide

/-- A symmetry permutes the neighbours. -/
theorem perm_offsets (s : Stencil) (g : GridSymmetry) : (s.offsets.map g.turn).Perm s.offsets := by
  have hnodup : (s.offsets.map g.turn).Nodup := s.nodup_offsets.map g.turn_injective
  refine (hnodup.subperm fun m hm => ?_).perm_of_length_le (List.length_map _).ge
  obtain ⟨n, hn, rfl⟩ := List.mem_map.1 hm
  rw [mem_offsets_iff, g.normSq_turn]
  exact mem_offsets_iff.1 hn

variable {M : Type} [AddCommMonoid M]

theorem sum_offsets_turn (s : Stencil) (g : GridSymmetry) (f : Offset → M) :
    (s.offsets.map fun n => f (g.turn n)).sum = (s.offsets.map f).sum := by
  rw [← ((s.perm_offsets g).map f).sum_eq, List.map_map]
  rfl

/-- The neighbours are the staggered directions and the directions opposite to them. -/
theorem sum_offsets (s : Stencil) (f : Offset → M) :
    (s.offsets.map f).sum =
      (s.staggered.map fun direction => f direction.offset + f (-direction.offset)).sum := by
  have hpairs : s.offsets.Perm
      (s.staggered.flatMap fun direction => [direction.offset, -direction.offset]) := by
    cases s <;> decide
  rw [(hpairs.map f).sum_eq, List.map_flatMap, List.flatMap_def, List.sum_flatten, List.map_map]
  simp only [Function.comp_def, List.map_cons, List.map_nil, List.sum_cons, List.sum_nil, add_zero]

end Stencil

end Electrokinetics
