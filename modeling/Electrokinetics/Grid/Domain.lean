/-
Periodic domains.

A domain is a box of interior cells whose opposite sides are identified.  Any coordinate is folded
onto the interior by its remainder by the extent, so that `-1` stands for the last cell and the
extent for the first.

Main definitions:

* `GridError` — why a domain or region does not exist, or a cell has no index;
* `Domain` — a periodic domain, with `Domain.ofExtent`;
* `Domain.fold`, `Domain.foldCell`, `Domain.isInterior` — folding onto the interior;
* `Domain.index`, `Domain.cellAt` — the numbering of the interior cells.

Main results:

* `Domain.foldCell_mem`, `Domain.foldCell_eq_self_iff` — folding lands in the interior and moves no
  interior cell;
* `Domain.cellAt_index`, `Domain.index_cellAt` — the numbering is one to one.
-/

import Electrokinetics.Grid.Shape

set_option relaxedAutoImplicit false
set_option autoImplicit false

namespace Electrokinetics

/-- Why a domain or region does not exist, or a cell has no index. -/
inductive GridError where
  /-- There is no cell along an axis. -/
  | emptyDomain (axis : Axis)
  /-- There are too many cells along an axis. -/
  | domainTooLarge (axis : Axis) (size max : Nat)
  /-- The cells cannot all be numbered. -/
  | tooManyCells (shape : Shape)
  /-- A region has too many ghost layers for its domain. -/
  | ghostDepth (ghostLayers max : Nat)
  /-- A cell lies outside a region. -/
  | cellOutOfRegion (cell : Cell) (ghostLayers : Nat)
  deriving DecidableEq, Repr

/-- The text of an error. -/
def GridError.message : GridError → String
  | .emptyDomain axis => "domain must have at least one cell along axis " ++ axis.text
  | .domainTooLarge axis size max =>
    "domain size " ++ toString size ++ " along axis " ++ axis.text ++ " exceeds maximum " ++
      toString max
  | .tooManyCells shape =>
    shape.bracketed toString ++ " cells cannot be addressed on this platform"
  | .ghostDepth ghostLayers max =>
    toString ghostLayers ++ " ghost layer(s) exceeds the maximum of " ++ toString max ++
      " for this domain"
  | .cellOutOfRegion cell ghostLayers =>
    "cell " ++ cell.bracketed toString ++ " outside the interior plus " ++ toString ghostLayers ++
      " ghost layer(s)"

/-- The greatest extent along an axis: coordinates have to fit a signed word of 32 bits. -/
def maxLength : Nat := Nat.pow 2 31 - 1

/-- The number of indices: the cells of a region are numbered by words of 64 bits. -/
def indexLimit : Nat := Nat.pow 2 64

/-- A periodic domain. -/
structure Domain where
  /-- The number of interior cells along each axis. -/
  extent : Shape
  /-- No axis is empty. -/
  pos : ∀ axis, 0 < extent.get axis
  /-- No axis is too long. -/
  le_maxLength : ∀ axis, extent.get axis ≤ maxLength
  /-- The interior cells can be numbered. -/
  count_lt : extent.count < indexLimit

namespace Domain

instance : DecidableEq Domain := fun a b =>
  if h : a.extent = b.extent then
    .isTrue (by cases a; cases b; cases h; rfl)
  else .isFalse fun hab => h (hab ▸ rfl)

/-! ### Construction -/

/-- What is wrong with an extent along an axis. -/
def axisFault? (extent : Shape) (axis : Axis) : Option GridError :=
  if extent.get axis = 0 then some (.emptyDomain axis)
  else if maxLength < extent.get axis then
    some (.domainTooLarge axis (extent.get axis) maxLength)
  else none

theorem axisFault?_eq_none_iff {extent : Shape} {axis : Axis} :
    axisFault? extent axis = none ↔ 0 < extent.get axis ∧ extent.get axis ≤ maxLength := by
  unfold axisFault?
  split
  · simp [*]
  · split <;> simp <;> omega

/-- The domain with given extents.  The axes are checked in order, each for being empty and then for
being too long, and at last the number of cells. -/
def ofExtent (extent : Shape) : Except GridError Domain :=
  match h : Axis.all.findSome? (axisFault? extent) with
  | some e => .error e
  | none =>
    if hc : extent.count < indexLimit then
      have ok (axis : Axis) := axisFault?_eq_none_iff.1
        (List.findSome?_eq_none_iff.1 h axis (Axis.mem_all axis))
      .ok ⟨extent, fun axis => (ok axis).1, fun axis => (ok axis).2, hc⟩
    else .error (.tooManyCells extent)

/-- The domain with the same extent along all axes. -/
def cubic (n : Nat) : Except GridError Domain := ofExtent (PerAxis.replicate n)

/-- The number of interior cells. -/
def cellCount (d : Domain) : Nat := d.extent.count

/-! ### Folding -/

/-- The interior coordinate that a coordinate stands for. -/
def fold (d : Domain) (axis : Axis) (coordinate : Int) : Int := coordinate % d.extent.get axis

/-- The interior cell that a cell stands for. -/
def foldCell (d : Domain) (cell : Cell) : Cell := cell.mapAxis d.fold

/-- Whether a cell lies in the interior. -/
def isInterior (d : Domain) (cell : Cell) : Bool :=
  Axis.all.all fun axis => 0 ≤ cell.get axis && cell.get axis < d.extent.get axis

variable (d : Domain)

theorem isInterior_iff {d : Domain} {cell : Cell} :
    d.isInterior cell ↔ ∀ axis, 0 ≤ cell.get axis ∧ cell.get axis < d.extent.get axis := by
  simp only [isInterior, List.all_eq_true, Axis.mem_all, forall_const, Bool.and_eq_true,
    decide_eq_true_eq]

theorem fold_nonneg (axis : Axis) (i : Int) : 0 ≤ d.fold axis i :=
  Int.emod_nonneg _ (by have := d.pos axis; omega)

theorem fold_lt (axis : Axis) (i : Int) : d.fold axis i < d.extent.get axis :=
  Int.emod_lt_of_pos _ (by have := d.pos axis; omega)

theorem foldCell_mem (cell : Cell) : d.isInterior (d.foldCell cell) := by
  rw [isInterior_iff]
  intro axis
  rw [foldCell, PerAxis.get_mapAxis]
  exact ⟨d.fold_nonneg axis _, d.fold_lt axis _⟩

theorem foldCell_eq_self_iff (cell : Cell) : d.foldCell cell = cell ↔ d.isInterior cell := by
  constructor
  · intro h
    rw [← h]
    exact d.foldCell_mem cell
  · intro h
    ext axis
    obtain ⟨h0, h1⟩ := isInterior_iff.1 h axis
    rw [foldCell, PerAxis.get_mapAxis, fold, Int.emod_eq_of_lt h0 h1]

@[simp] theorem foldCell_foldCell (cell : Cell) : d.foldCell (d.foldCell cell) = d.foldCell cell :=
  (d.foldCell_eq_self_iff _).2 (d.foldCell_mem cell)

/-! ### Numbering -/

/-- The interior position that a cell stands for. -/
def position (cell : Cell) : PerAxis Nat := (d.foldCell cell).map Int.toNat

theorem position_lt (cell : Cell) (axis : Axis) :
    (d.position cell).get axis < d.extent.get axis := by
  have h0 := d.fold_nonneg axis (cell.get axis)
  have h1 := d.fold_lt axis (cell.get axis)
  simp only [position, foldCell, PerAxis.get_map, PerAxis.get_mapAxis]
  omega

/-- The number of the interior cell that a cell stands for. -/
def index (cell : Cell) : Fin d.cellCount :=
  ⟨d.extent.flatten (d.position cell), Shape.flatten_lt (d.position_lt cell)⟩

/-- The interior cell with a number. -/
def cellAt (i : Nat) : Cell := (d.extent.position i).map fun (n : Nat) => (n : Int)

theorem cellAt_index (cell : Cell) : d.cellAt (d.index cell).val = d.foldCell cell := by
  rw [cellAt, index, Shape.position_flatten (d.position_lt cell)]
  ext axis
  have h0 := d.fold_nonneg axis (cell.get axis)
  simp only [position, foldCell, PerAxis.get_map, PerAxis.get_mapAxis]
  exact Int.toNat_of_nonneg h0

theorem position_cellAt {i : Nat} (h : i < d.cellCount) :
    d.position (d.cellAt i) = d.extent.position i := by
  ext axis
  have hlt := Shape.position_lt h axis
  simp only [position, cellAt, foldCell, PerAxis.get_map, PerAxis.get_mapAxis, fold]
  rw [Int.emod_eq_of_lt (Int.natCast_nonneg _) (Int.ofNat_lt.2 hlt), Int.toNat_natCast]

theorem index_cellAt (i : Fin d.cellCount) : d.index (d.cellAt i.val) = i := by
  apply Fin.ext
  simp only [index]
  rw [d.position_cellAt i.isLt, Shape.flatten_position]

end Domain

end Electrokinetics
