/-
**The cells of a region.**

A region lists every cell that it contains, and its bounds keep all coordinates small: a region that
exists is far from the integers that a scalar cannot hold.

Main results:

* `Region.get_position`, `Region.position_lt` — positions of the cells of a region;
* `Region.mem_cells` — the cells in the list are those in the region;
* `Region.mem_cells_interior`, `Region.cells_interior`, `Region.nodup_map_foldCell_interior` — the
  region without ghost layers;
* `Region.natAbs_le` — coordinates in a region.
-/

import Electrokinetics.Grid.Region
import Electrokinetics.Proofs.Grid.Translation
import Mathlib.Data.List.Nodup

set_option relaxedAutoImplicit false
set_option autoImplicit false

namespace Electrokinetics

namespace Region

theorem get_shape (r : Region) (axis : Axis) :
    r.shape.get axis = r.domain.extent.get axis + 2 * r.ghostLayers := by
  rw [shape, Domain.grownShape, PerAxis.get_map]

/-- The position of a cell is its distance from the least corner. -/
theorem get_position {r : Region} {x : Cell} (h : r.contains x) (axis : Axis) :
    ((r.position x).get axis : ℤ) = x.get axis + r.ghostLayers := by
  have haxis := contains_iff.1 h axis
  rw [position, PerAxis.get_map]
  omega

theorem position_lt {r : Region} {x : Cell} (h : r.contains x) (axis : Axis) :
    (r.position x).get axis < r.shape.get axis := by
  have haxis := contains_iff.1 h axis
  have hposition := get_position h axis
  omega

theorem cellAt_contains (r : Region) {i : Nat} (h : i < r.cellCount) : r.contains (r.cellAt i) := by
  rw [contains_iff]
  intro axis
  have hlt := Shape.position_lt h axis
  rw [cellAt, PerAxis.get_map]
  omega

theorem cellAt_flatten (r : Region) {x : Cell} (h : r.contains x) :
    r.cellAt (r.shape.flatten (r.position x)) = x := by
  ext axis
  rw [cellAt, Shape.position_flatten (position_lt h), PerAxis.get_map, get_position h]
  exact Int.add_sub_cancel _ _

theorem flatten_position_lt (r : Region) {x : Cell} (h : r.contains x) :
    r.shape.flatten (r.position x) < r.cellCount := Shape.flatten_lt (position_lt h)

theorem mem_cells {r : Region} {x : Cell} : x ∈ r.cells ↔ r.contains x := by
  rw [cells, List.mem_map]
  constructor
  · rintro ⟨i, hi, rfl⟩
    exact r.cellAt_contains (List.mem_range.1 hi)
  · intro h
    exact ⟨_, List.mem_range.2 (r.flatten_position_lt h), r.cellAt_flatten h⟩

theorem contains_interior {d : Domain} {x : Cell} :
    (interior d).contains x ↔ d.isInterior x := by
  have hshape : (interior d).shape = d.extent := rfl
  have hdepth : ((interior d).ghostLayers : Int) = 0 := rfl
  rw [contains_iff, Domain.isInterior_iff, hshape, hdepth]
  simp only [Int.add_zero]

theorem mem_cells_interior {d : Domain} {x : Cell} :
    x ∈ (interior d).cells ↔ d.isInterior x := by
  rw [mem_cells, contains_interior]

theorem foldCell_mem_interior (d : Domain) (x : Cell) : d.foldCell x ∈ (interior d).cells :=
  mem_cells_interior.2 (d.foldCell_mem x)

theorem foldCell_of_mem_interior {d : Domain} {x : Cell} (h : x ∈ (interior d).cells) :
    d.foldCell x = x :=
  (d.foldCell_eq_self_iff x).2 (mem_cells_interior.1 h)

theorem cells_interior (d : Domain) :
    (interior d).cells = (List.range d.cellCount).map d.cellAt := by
  have hshape : (interior d).shape = d.extent := rfl
  have hcell : (interior d).cellAt = d.cellAt := by
    funext i
    ext axis
    simp only [cellAt, Domain.cellAt, hshape, PerAxis.get_map]
    exact Int.sub_zero _
  rw [cells, hcell]
  rfl

theorem cells_interior_eq_ofFn (d : Domain) :
    (interior d).cells = List.ofFn fun i : Fin d.cellCount => d.cellAt i.val := by
  rw [cells_interior]
  refine List.ext_getElem (by simp) fun i h₁ h₂ => ?_
  simp

/-- No two interior cells stand for one. -/
theorem nodup_map_foldCell_interior (d : Domain) :
    ((interior d).cells.map d.foldCell).Nodup := by
  rw [cells_interior, List.map_map]
  refine List.Nodup.map_on (fun i hi j hj h => ?_) List.nodup_range
  have hindex := d.index_eq_of_foldCell_eq h
  rw [d.index_cellAt ⟨i, List.mem_range.1 hi⟩, d.index_cellAt ⟨j, List.mem_range.1 hj⟩] at hindex
  exact congrArg Fin.val hindex

/-! ### Bounds -/

theorem contains_of_isInterior {r : Region} {x : Cell} (h : r.domain.isInterior x) :
    r.contains x := by
  rw [contains_iff]
  intro axis
  have haxis := Domain.isInterior_iff.1 h axis
  rw [get_shape]
  omega

theorem mem_cells_of_mem_interior {r : Region} {x : Cell} (h : x ∈ (interior r.domain).cells) :
    x ∈ r.cells :=
  mem_cells.2 (contains_of_isInterior (mem_cells_interior.1 h))

theorem natAbs_le {r : Region} {x : Cell} (h : r.contains x) (axis : Axis) :
    (x.get axis).natAbs ≤ maxLength := by
  have haxis := contains_iff.1 h axis
  have hle : r.shape.get axis ≤ maxLength := r.le_maxLength axis
  rw [get_shape] at haxis hle
  omega

theorem ofDepth_eq_ok {d : Domain} {ghostLayers : Nat} {r : Region}
    (h : ofDepth d ghostLayers = .ok r) : r.domain = d ∧ r.ghostLayers = ghostLayers := by
  unfold ofDepth at h
  split at h
  · split at h
    · cases h
      exact ⟨rfl, rfl⟩
    · cases h
  · cases h

end Region

end Electrokinetics
