/-
**The numbering of a region.**

A region numbers its cells with mixed radices, the extents of its three axes, and counts every
coordinate from the least corner, which is negative where there are ghost layers.  A cell and its
number determine each other, and the numbers follow the order in which a sweep visits the cells: by z
first, then by y, then by x.  So the numbering is an isomorphism of orders, and the list of the cells
holds each of them once, in increasing order.

Main definitions:

* `PerAxis.sweepKey` — a triple as a key of the lexicographic order in which z counts most.

Main results:

* `Shape.flatten_lt_flatten_iff` — numbers of positions compare as their keys do;
* `Region.indexOf_eq_ok_iff`, `Region.cellAt?_eq_some_iff` — what the numbering gives, and when;
* `Region.cellAt_lt_cellAt_iff` — cells compare as their numbers do;
* `Region.numbering_orderIso` — the numbering is an isomorphism of orders.
-/

import Electrokinetics.Proofs.Grid.Region
import Mathlib.Data.Prod.Lex

set_option relaxedAutoImplicit false
set_option autoImplicit false

namespace Electrokinetics

/-! ### The order of a sweep -/

namespace PerAxis

variable {α β : Type}

/-- A triple as a key that is compared by z first, then by y and at last by x. -/
def sweepKey (v : PerAxis α) : α ×ₗ α ×ₗ α := toLex (v.z, toLex (v.y, v.x))

variable [LinearOrder α] [LinearOrder β]

theorem sweepKey_lt_sweepKey_iff {v w : PerAxis α} :
    v.sweepKey < w.sweepKey ↔ v.z < w.z ∨ v.z = w.z ∧ (v.y < w.y ∨ v.y = w.y ∧ v.x < w.x) := by
  simp only [sweepKey, Prod.Lex.toLex_lt_toLex]

/-- A change of the items that keeps their order keeps the order of the keys. -/
theorem sweepKey_map_lt_iff {f : α → β} (hf : StrictMono f) {v w : PerAxis α} :
    (v.map f).sweepKey < (w.map f).sweepKey ↔ v.sweepKey < w.sweepKey := by
  simp only [sweepKey_lt_sweepKey_iff, map, hf.lt_iff_lt, hf.injective.eq_iff]

end PerAxis

namespace Shape

/-- Numbers compare by their higher digits, and by the lowest one where these agree. -/
theorem mul_add_lt_mul_add_iff (a a' : ℕ) {b b' n : ℕ} (hb : b < n) (hb' : b' < n) :
    a * n + b < a' * n + b' ↔ a < a' ∨ a = a' ∧ b < b' := by
  -- A higher digit that is greater by one outweighs the whole range of the lower one.
  rcases lt_trichotomy a a' with hlt | rfl | hgt
  · have hrow := Nat.mul_le_mul_right n (Nat.succ_le_of_lt hlt)
    rw [Nat.succ_mul] at hrow
    omega
  · omega
  · have hrow := Nat.mul_le_mul_right n (Nat.succ_le_of_lt hgt)
    rw [Nat.succ_mul] at hrow
    omega

theorem flatten_lt_flatten_iff {s : Shape} {p q : PerAxis ℕ}
    (hp : ∀ axis, p.get axis < s.get axis) (hq : ∀ axis, q.get axis < s.get axis) :
    s.flatten p < s.flatten q ↔ p.sweepKey < q.sweepKey := by
  -- The row is the higher digit beside x, and in the number of a row so is z beside y.
  have hrow : p.z * s.y + p.y = q.z * s.y + q.y ↔ p.z = q.z ∧ p.y = q.y := by
    have hlt := mul_add_lt_mul_add_iff p.z q.z (hp .y) (hq .y)
    have hgt := mul_add_lt_mul_add_iff q.z p.z (hq .y) (hp .y)
    simp only [PerAxis.get] at hlt hgt
    omega
  have hrows := mul_add_lt_mul_add_iff p.z q.z (hp .y) (hq .y)
  have hcells := mul_add_lt_mul_add_iff (p.z * s.y + p.y) (q.z * s.y + q.y) (hp .x) (hq .x)
  simp only [PerAxis.get] at hrows hcells
  rw [flatten, flatten, hcells, hrows, hrow, PerAxis.sweepKey_lt_sweepKey_iff]
  tauto

end Shape

/-! ### Cells and their numbers -/

namespace Region

variable {r : Region} {x : Cell} {i j : ℕ}

theorem indexOf_eq_ok_iff :
    r.indexOf x = .ok i ↔ r.contains x ∧ r.shape.flatten (r.position x) = i := by
  unfold indexOf
  split <;> simp [*]

theorem cellAt?_eq_some_iff : r.cellAt? i = some x ↔ i < r.cellCount ∧ r.cellAt i = x := by
  unfold cellAt?
  split <;> simp [*]

theorem flatten_position_cellAt (r : Region) (i : ℕ) :
    r.shape.flatten (r.position (r.cellAt i)) = i := by
  have hposition : r.position (r.cellAt i) = r.shape.position i := by
    ext axis
    simp only [position, cellAt, PerAxis.get_map]
    omega
  rw [hposition, Shape.flatten_position]

/-- A cell has a number exactly if the cell with that number is the cell. -/
theorem indexOf_eq_ok_iff_cellAt? : r.indexOf x = .ok i ↔ r.cellAt? i = some x := by
  rw [indexOf_eq_ok_iff, cellAt?_eq_some_iff]
  constructor
  · rintro ⟨hx, rfl⟩
    exact ⟨r.flatten_position_lt hx, r.cellAt_flatten hx⟩
  · rintro ⟨hi, rfl⟩
    exact ⟨r.cellAt_contains hi, r.flatten_position_cellAt i⟩

theorem cellAt_lt_cellAt_iff (hi : i < r.cellCount) (hj : j < r.cellCount) :
    (r.cellAt i).sweepKey < (r.cellAt j).sweepKey ↔ i < j := by
  have hshift : StrictMono fun n : ℕ => (n : ℤ) - r.ghostLayers := by
    intro m n hmn
    dsimp only
    omega
  rw [cellAt, cellAt, PerAxis.sweepKey_map_lt_iff hshift,
    ← Shape.flatten_lt_flatten_iff (Shape.position_lt hi) (Shape.position_lt hj),
    Shape.flatten_position, Shape.flatten_position]

/-! ### The list of cells -/

theorem pairwise_cells (r : Region) :
    r.cells.Pairwise fun x y => x.sweepKey < y.sweepKey := by
  rw [cells, List.pairwise_map]
  refine List.pairwise_lt_range.imp_of_mem fun hi hj hlt => ?_
  exact (cellAt_lt_cellAt_iff (List.mem_range.1 hi) (List.mem_range.1 hj)).2 hlt

theorem nodup_cells (r : Region) : r.cells.Nodup :=
  r.pairwise_cells.imp fun {x y} hlt heq => by
    subst heq
    exact lt_irrefl _ hlt

theorem count_cells (r : Region) (x : Cell) :
    r.cells.count x = if r.contains x then 1 else 0 := by
  split
  · next h => exact List.count_eq_one_of_mem r.nodup_cells (mem_cells.2 h)
  · next h => exact List.count_eq_zero_of_not_mem fun hmem => h (mem_cells.1 hmem)

/-- Cells and numbers determine each other, between the cells of a region and the numbers below their
count, and cells come in the order of their numbers.  The list of the cells holds each cell of the
region once, in that order. -/
theorem numbering_orderIso (r : Region) :
    (∀ x i, r.indexOf x = .ok i ↔ r.cellAt? i = some x) ∧
      (∀ x, (∃ i, r.indexOf x = .ok i) ↔ r.contains x) ∧
      (∀ i, (∃ x, r.cellAt? i = some x) ↔ i < r.cellCount) ∧
      (∀ i j : Fin r.cellCount, (r.cellAt i).sweepKey < (r.cellAt j).sweepKey ↔ i < j) ∧
      (∀ x, r.cells.count x = if r.contains x then 1 else 0) ∧
      r.cells.Pairwise fun x y => x.sweepKey < y.sweepKey := by
  refine ⟨fun x i => indexOf_eq_ok_iff_cellAt?, fun x => ?_, fun i => ?_,
    fun i j => cellAt_lt_cellAt_iff i.isLt j.isLt, r.count_cells, r.pairwise_cells⟩
  · simp only [indexOf_eq_ok_iff, exists_and_left, exists_eq', and_true]
  · simp only [cellAt?_eq_some_iff, exists_and_left, exists_eq', and_true]

end Region

end Electrokinetics
