/-
The cells that a sweep visits.

A region is the interior of a domain, grown by some ghost layers on every side.  Its cells are
numbered in the order in which a sweep visits them, x fastest and z slowest.

Main definitions:

* `Region` — a domain with ghost layers, with `Region.ofDepth` and `Region.interior`;
* `Region.contains`, `Region.isGhost` — membership;
* `Region.indexOf`, `Region.cellAt?`, `Region.cells` — the numbering;
* `Region.slice` — a stretch of the numbering.
-/

import Electrokinetics.Grid.Domain

set_option relaxedAutoImplicit false
set_option autoImplicit false

namespace Electrokinetics

/-- The box of a domain with ghost layers on every side. -/
def Domain.grownShape (d : Domain) (ghostLayers : Nat) : Shape :=
  d.extent.map fun length => length + 2 * ghostLayers

/-- The interior of a domain with ghost layers. -/
structure Region where
  /-- The domain. -/
  domain : Domain
  /-- The number of ghost layers on every side. -/
  ghostLayers : Nat
  /-- No axis is too long. -/
  le_maxLength : ∀ axis, (domain.grownShape ghostLayers).get axis ≤ maxLength
  /-- The cells can be numbered. -/
  count_lt : (domain.grownShape ghostLayers).count < indexLimit

namespace Region

/-! ### Construction -/

/-- The greatest number of ghost layers with which no axis of a domain gets too long. -/
def maxGhostLayers (d : Domain) : Nat :=
  (maxLength - max d.extent.x (max d.extent.y d.extent.z)) / 2

theorem grown_le_maxLength {d : Domain} {ghostLayers : Nat} (h : ghostLayers ≤ maxGhostLayers d)
    (axis : Axis) : (d.grownShape ghostLayers).get axis ≤ maxLength := by
  have hx := d.le_maxLength .x
  have hy := d.le_maxLength .y
  have hz := d.le_maxLength .z
  simp only [maxGhostLayers, PerAxis.get] at h hx hy hz
  rw [Domain.grownShape, PerAxis.get_map]
  cases axis <;> simp only [PerAxis.get] <;> omega

/-- The region with some number of ghost layers.  First the depth is checked and then the number of
cells. -/
def ofDepth (d : Domain) (ghostLayers : Nat) : Except GridError Region :=
  if h : ghostLayers ≤ maxGhostLayers d then
    if hc : (d.grownShape ghostLayers).count < indexLimit then
      .ok ⟨d, ghostLayers, grown_le_maxLength h, hc⟩
    else .error (.tooManyCells (d.grownShape ghostLayers))
  else .error (.ghostDepth ghostLayers (maxGhostLayers d))

/-- The region without ghost layers. -/
def interior (d : Domain) : Region := ⟨d, 0, d.le_maxLength, d.count_lt⟩

/-! ### Cells -/

variable (r : Region)

/-- The number of cells along each axis. -/
def shape : Shape := r.domain.grownShape r.ghostLayers

/-- The number of cells. -/
def cellCount : Nat := r.shape.count

/-- Whether a cell belongs to the region. -/
def contains (cell : Cell) : Bool :=
  Axis.all.all fun axis =>
    0 ≤ cell.get axis + r.ghostLayers && cell.get axis + r.ghostLayers < r.shape.get axis

/-- Whether a cell belongs to the region but not to the interior. -/
def isGhost (cell : Cell) : Bool := r.contains cell && !r.domain.isInterior cell

/-- The position of a cell, counted from the least corner. -/
def position (cell : Cell) : PerAxis Nat := cell.map fun (i : Int) => (i + r.ghostLayers).toNat

/-- The number of a cell. -/
def indexOf (cell : Cell) : Except GridError Nat :=
  if r.contains cell then .ok (r.shape.flatten (r.position cell))
  else .error (.cellOutOfRegion cell r.ghostLayers)

/-- The cell with a number. -/
def cellAt (i : Nat) : Cell := (r.shape.position i).map fun (n : Nat) => (n : Int) - r.ghostLayers

/-- The cell with a number, if there are enough cells. -/
def cellAt? (i : Nat) : Option Cell := if i < r.cellCount then some (r.cellAt i) else none

/-- The cells in order. -/
def cells : List Cell := (List.range r.cellCount).map r.cellAt

/-- A stretch of the cells in order, without the ones before it. -/
def slice (skip take : Nat) : List Cell :=
  (List.range (min take (r.cellCount - skip))).map fun i => r.cellAt (skip + i)

theorem slice_eq (skip take : Nat) : r.slice skip take = (r.cells.drop skip).take take := by
  apply List.ext_getElem
  · simp [slice, cells]
  · intro i h₁ h₂
    simp [slice, cells]

theorem contains_iff {r : Region} {cell : Cell} :
    r.contains cell ↔ ∀ axis,
      0 ≤ cell.get axis + r.ghostLayers ∧ cell.get axis + r.ghostLayers < r.shape.get axis := by
  simp only [contains, List.all_eq_true, Axis.mem_all, forall_const, Bool.and_eq_true,
    decide_eq_true_eq]

end Region

end Electrokinetics
