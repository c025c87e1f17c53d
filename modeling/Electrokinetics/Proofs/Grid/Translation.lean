/-
**Translations of a periodic domain.**

Moving every interior cell by an offset and folding the result back permutes the interior, whatever
the extents are: also along an axis with one or two cells, where a neighbour may be the cell itself
or be reached in both directions.  So a sum over the interior does not change when every cell is
replaced by its neighbour in a fixed direction.

Main definitions:

* `Domain.translate` — the permutation of the numbers of the cells.

Main results:

* `Domain.index_eq_index_iff` — cells have one number if they fold onto one cell;
* `Domain.sum_translate` — a sum over the interior and over its neighbours.
-/

import Electrokinetics.Grid.Domain
import Mathlib.Algebra.BigOperators.Fin

set_option relaxedAutoImplicit false
set_option autoImplicit false

namespace Electrokinetics

theorem Cell.add_zero (x : Cell) : x + (0 : Offset) = x := by
  ext axis
  simp

theorem Cell.add_assoc (x m n : Cell) : x + m + n = x + (m + n) := by
  ext axis
  simp only [PerAxis.get_add]
  omega

theorem Cell.neg_neg (x : Cell) : - -x = x := by
  ext axis
  simp

theorem Cell.add_neg_add (x n : Cell) : x + -n + n = x := by
  ext axis
  simp

theorem Cell.add_neg_cancel_right (x n : Cell) : x + n + -n = x := by
  ext axis
  simp

theorem Cell.add_right_comm (x m n : Cell) : x + m + n = x + n + m := by
  ext axis
  simp only [PerAxis.get_add]
  omega

namespace Domain

variable (d : Domain)

theorem fold_fold_add (axis : Axis) (i j : ℤ) :
    d.fold axis (d.fold axis i + j) = d.fold axis (i + j) := Int.emod_add_emod i _ j

theorem foldCell_eq_foldCell_iff {x y : Cell} :
    d.foldCell x = d.foldCell y ↔ ∀ axis, d.fold axis (x.get axis) = d.fold axis (y.get axis) := by
  constructor
  · intro h axis
    have hget := congrArg (fun cell : Cell => cell.get axis) h
    simpa only [foldCell, PerAxis.get_mapAxis] using hget
  · intro h
    ext axis
    rw [foldCell, foldCell, PerAxis.get_mapAxis, PerAxis.get_mapAxis, h axis]

theorem index_eq_of_foldCell_eq {x y : Cell} (h : d.foldCell x = d.foldCell y) :
    d.index x = d.index y := by
  apply Fin.ext
  simp only [index, position, h]

theorem index_eq_index_iff {x y : Cell} : d.index x = d.index y ↔ d.foldCell x = d.foldCell y := by
  constructor
  · intro h
    rw [← d.cellAt_index, ← d.cellAt_index, h]
  · exact d.index_eq_of_foldCell_eq

/-- Folding before a step changes nothing after it. -/
theorem foldCell_foldCell_add (x n : Cell) : d.foldCell (d.foldCell x + n) = d.foldCell (x + n) := by
  rw [foldCell_eq_foldCell_iff]
  intro axis
  rw [PerAxis.get_add, PerAxis.get_add, foldCell, PerAxis.get_mapAxis, fold_fold_add]

theorem foldCell_add_congr {x y : Cell} (h : d.foldCell x = d.foldCell y) (n : Offset) :
    d.foldCell (x + n) = d.foldCell (y + n) := by
  rw [← d.foldCell_foldCell_add x, h, d.foldCell_foldCell_add]

/-- Cells that stand for different cells still do so after a step. -/
theorem foldCell_add_inj {x y : Cell} {n : Offset} :
    d.foldCell (x + n) = d.foldCell (y + n) ↔ d.foldCell x = d.foldCell y := by
  constructor
  · intro h
    have hback := d.foldCell_add_congr h (-n)
    rwa [Cell.add_neg_cancel_right, Cell.add_neg_cancel_right] at hback
  · exact fun h => d.foldCell_add_congr h n

theorem index_foldCell_add (x n : Cell) : d.index (d.foldCell x + n) = d.index (x + n) :=
  d.index_eq_of_foldCell_eq (d.foldCell_foldCell_add x n)

/-- The number of the cell an offset away. -/
def shiftIndex (n : Offset) (i : Fin d.cellCount) : Fin d.cellCount :=
  d.index (d.cellAt i.val + n)

theorem shiftIndex_index (n : Offset) (x : Cell) : d.shiftIndex n (d.index x) = d.index (x + n) := by
  rw [shiftIndex, cellAt_index, index_foldCell_add]

theorem shiftIndex_shiftIndex {m n : Offset} (h : n + m = 0) (i : Fin d.cellCount) :
    d.shiftIndex m (d.shiftIndex n i) = i := by
  have hback : d.cellAt i.val + n + m = d.cellAt i.val := by
    ext axis
    have haxis := congrArg (fun v : Offset => v.get axis) h
    simp only [PerAxis.get_add, PerAxis.get_zero] at haxis ⊢
    omega
  rw [shiftIndex, shiftIndex, cellAt_index, index_foldCell_add, hback, index_cellAt]

/-- The translation by an offset. -/
def translate (n : Offset) : Equiv.Perm (Fin d.cellCount) where
  toFun := d.shiftIndex n
  invFun := d.shiftIndex (-n)
  left_inv := d.shiftIndex_shiftIndex (by ext axis; simp)
  right_inv := d.shiftIndex_shiftIndex (by ext axis; simp)

/-- A sum over the interior is the same sum over the neighbours in a direction, for what depends only
on the cell that a cell stands for. -/
theorem sum_translate {M : Type} [AddCommMonoid M] (n : Offset) {f : Cell → M}
    (hf : ∀ x, f (d.foldCell x) = f x) :
    ∑ i : Fin d.cellCount, f (d.cellAt i.val + n) = ∑ i : Fin d.cellCount, f (d.cellAt i.val) := by
  have hshift (i : Fin d.cellCount) :
      f (d.cellAt i.val + n) = f (d.cellAt (d.translate n i).val) := by
    change _ = f (d.cellAt (d.index (d.cellAt i.val + n)).val)
    rw [cellAt_index, hf]
  rw [Finset.sum_congr rfl fun i _ => hshift i]
  exact Equiv.sum_comp (d.translate n) fun i => f (d.cellAt i.val)

/-- A domain on which one neighbour of a cell is the cell itself and another is reached in both
directions. -/
def narrow : Domain where
  extent := ⟨1, 2, 3⟩
  pos axis := by cases axis <;> decide
  le_maxLength axis := by cases axis <;> decide
  count_lt := by decide

end Domain

end Electrokinetics
