/-
**Columns and totals.**

A column lists the values of a component in the order in which a sweep visits the interior, and a total
adds up a column.  So the total of a component is the sum of its values over the interior, and a
component without values counts as zero everywhere.

Main results:

* `Store.toList_ofFn_cellAt`, `Store.toList_eq_map_get?` — a column in the order of a sweep;
* `Store.total_eq_sum_cells` — the total of any component, as a sum over cells;
* `Store.total_eq_sum` — the total of a component whose values are known, as a sum over numbers.
-/

import Electrokinetics.Proofs.Grid.Region
import Electrokinetics.Proofs.Scalar.Exact
import Electrokinetics.Sweep.Store
import Mathlib.Algebra.BigOperators.Fin

set_option relaxedAutoImplicit false
set_option autoImplicit false

namespace Electrokinetics

namespace Store

/-! ### Columns -/

section Columns

variable {K : Type} {domain : Domain}

/-- The numbering of the interior is that of its sweep. -/
theorem toList_ofFn_cellAt (f : Cell → K) :
    (Vector.ofFn fun i : Fin domain.cellCount => f (domain.cellAt i.val)).toList =
      (Region.interior domain).cells.map f := by
  rw [Region.cells_interior_eq_ofFn, List.map_ofFn, Vector.toList_ofFn]
  rfl

/-- A column lists the values of its component in the order of a sweep. -/
theorem toList_eq_map_get? {s : Store K domain} {field : String} {component : ℕ}
    {values : Vector K domain.cellCount} (h : s.columns[(field, component)]? = some values)
    (default : K) : values.toList =
      (Region.interior domain).cells.map fun x => (s.get? field component x).getD default := by
  rw [← toList_ofFn_cellAt]
  refine congrArg Vector.toList (Vector.ext fun i hi => ?_)
  have hindex := domain.index_cellAt ⟨i, hi⟩
  rw [Vector.getElem_ofFn]
  simp only [get?, h, Option.map_some, Option.getD_some, hindex, Fin.getElem_fin]

end Columns

/-! ### Totals -/

variable {K : Type} [OrderedField K] [Scalar K] [ExactScalar K] {domain : Domain}

/-- The total of a component is the sum of its values over the cells of the interior. -/
theorem total_eq_sum_cells (s : Store K domain) (field : String) (component : ℕ) :
    s.total field component =
      ((Region.interior domain).cells.map fun x => (s.get? field component x).getD 0).sum := by
  rw [total]
  split
  · next values hvalues => rw [Scalar.sum_eq, toList_eq_map_get? hvalues 0]
  · next hnone => simp [get?, hnone]

/-- The total of a component is the sum of its values over the interior. -/
theorem total_eq_sum {s : Store K domain} {field : String} {component : ℕ}
    {v : Fin domain.cellCount → K}
    (h : ∀ i, s.get? field component (domain.cellAt i.val) = some (v i)) :
    s.total field component = ∑ i, v i := by
  rw [total_eq_sum_cells, Region.cells_interior_eq_ofFn, List.map_ofFn, List.sum_ofFn]
  refine Finset.sum_congr rfl fun i _ => ?_
  rw [Function.comp_apply, h, Option.getD_some]

end Store

end Electrokinetics
