/-
**Folding as a quotient.**

Folding picks one cell out of every class of cells that are congruent modulo the extents, and the
cells that it picks are the interior.  A ghost cell is a cell of a region that is not the one picked
from its class, however deep the ghost layers are: also where they are deeper than the domain, so that
folding wraps a cell more than once.

Main results:

* `Domain.fold_eq_fold_iff_dvd`, `Domain.foldCell_eq_foldCell_iff_dvd` — which cells fold onto one;
* `Region.isGhost_iff_foldCell_ne` — ghosts are the cells that folding moves;
* `Region.countP_isGhost_add` — how many ghosts there are;
* `Domain.foldCell_quotient` — folding is the quotient map onto the interior.
-/

import Electrokinetics.Proofs.Grid.Numbering

set_option relaxedAutoImplicit false
set_option autoImplicit false

namespace Electrokinetics

/-! ### Classes of cells -/

namespace Domain

theorem fold_eq_fold_iff_dvd (d : Domain) (axis : Axis) (i j : ℤ) :
    d.fold axis i = d.fold axis j ↔ (d.extent.get axis : ℤ) ∣ i - j := by
  rw [fold, fold, Int.emod_eq_emod_iff_emod_sub_eq_zero, Int.dvd_iff_emod_eq_zero]

theorem foldCell_eq_foldCell_iff_dvd (d : Domain) (x y : Cell) :
    d.foldCell x = d.foldCell y ↔
      ∀ axis, (d.extent.get axis : ℤ) ∣ x.get axis - y.get axis := by
  simp only [foldCell_eq_foldCell_iff, fold_eq_fold_iff_dvd]

end Domain

/-! ### Ghosts -/

namespace Region

theorem isGhost_iff_foldCell_ne {r : Region} {x : Cell} :
    r.isGhost x ↔ r.contains x ∧ r.domain.foldCell x ≠ x := by
  rw [isGhost, Bool.and_eq_true, Bool.not_eq_true', ← Bool.not_eq_true,
    ← r.domain.foldCell_eq_self_iff]

theorem length_cells (r : Region) : r.cells.length = r.cellCount := by
  rw [cells, List.length_map, List.length_range]

/-- The cells of a region that are not ghosts are the interior cells. -/
theorem filter_isInterior_perm (r : Region) :
    (r.cells.filter r.domain.isInterior).Perm (interior r.domain).cells := by
  refine (List.perm_ext_iff_of_nodup (r.nodup_cells.filter _) (nodup_cells _)).2 fun x => ?_
  rw [List.mem_filter, mem_cells_interior]
  constructor
  · exact fun h => h.2
  · exact fun h => ⟨mem_cells_of_mem_interior (mem_cells_interior.2 h), h⟩

theorem countP_isGhost_add (r : Region) :
    r.cells.countP r.isGhost + r.domain.cellCount = r.cellCount := by
  have hinterior : r.cells.countP r.domain.isInterior = r.domain.cellCount := by
    rw [List.countP_eq_length_filter, r.filter_isInterior_perm.length_eq, length_cells]
    rfl
  have hghost : r.cells.countP r.isGhost =
      r.cells.countP fun x => decide ¬r.domain.isInterior x := by
    refine List.countP_congr fun x hx => ?_
    have hcontains : r.contains x = true := mem_cells.1 hx
    simp [isGhost, hcontains]
  have hsplit := List.length_eq_countP_add_countP r.domain.isInterior (l := r.cells)
  rw [length_cells, hinterior, ← hghost] at hsplit
  omega

end Region

/-- Folding lands in the interior, puts together exactly the cells that are congruent along every
axis, and leaves exactly the interior cells in place.  So the ghosts of a region are the cells in it
that folding moves, and there are as many of them as the region has cells beyond the interior. -/
theorem Domain.foldCell_quotient (d : Domain) :
    (∀ x, d.isInterior (d.foldCell x)) ∧
      (∀ x y, d.foldCell x = d.foldCell y ↔
        ∀ axis, (d.extent.get axis : ℤ) ∣ x.get axis - y.get axis) ∧
      (∀ x, d.foldCell x = x ↔ d.isInterior x) ∧
      ∀ r : Region, (∀ x, r.isGhost x ↔ r.contains x ∧ r.domain.foldCell x ≠ x) ∧
        r.cells.countP r.isGhost + r.domain.cellCount = r.cellCount :=
  ⟨d.foldCell_mem, d.foldCell_eq_foldCell_iff_dvd, d.foldCell_eq_self_iff,
    fun r => ⟨fun _ => Region.isGhost_iff_foldCell_ne, r.countP_isGhost_add⟩⟩

end Electrokinetics
