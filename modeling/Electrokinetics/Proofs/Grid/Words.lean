/-
**The numbering in machine words.**

The numbering of a region is told over unbounded integers, but it is computed in machine words: the
extents have 32 bits, numbers of cells 64 bits, and coordinates 64 bits with a sign.  Whether a domain
or a region exists is decided by a product that is taken step by step and given up as soon as a step
does not fit, while the numbering takes other products in another order.  This module repeats the
numbering with a check of every intermediate result and shows that no check fails for a region that
exists.

Main definitions:

* `WordType` — a type of machine words, with its checked results `WordType.hold?`,
  `WordType.quotient?` and `WordType.remainder?`;
* `Shape.countInWords?` — the product of three lengths, taken step by step;
* `Region.shapeInWords?`, `Region.containsInWords?`, `Region.indexInWords?`, `Region.cellInWords?` —
  the numbering with checks, in the order of its operations.

Main results:

* `Domain.exists_ofExtent_iff`, `Region.exists_ofDepth_iff` — which domains and regions exist;
* `Shape.countInWords?_eq` — a product of positive lengths fits if and only if every step does;
* `Region.indexInWords?_eq`, `Region.cellInWords?_eq` — the checked numbering is the numbering;
* `Region.numbering_fits_words` — all of this together.
-/

import Electrokinetics.Proofs.Grid.Region
import Mathlib.Algebra.Order.Ring.Int

set_option relaxedAutoImplicit false
set_option autoImplicit false

namespace Electrokinetics

/-! ### Words -/

/-- A type of machine words, given by the range of the integers that it holds. -/
structure WordType where
  /-- The least integer of the range. -/
  least : ℤ
  /-- The greatest integer of the range. -/
  greatest : ℤ

namespace WordType

/-- Words of 32 bits without a sign: extents and ghost layers. -/
def unsigned32 : WordType := ⟨0, 2 ^ 32 - 1⟩

/-- Words of 64 bits without a sign: numbers of cells and indices. -/
def unsigned64 : WordType := ⟨0, 2 ^ 64 - 1⟩

/-- Words of 64 bits with a sign: coordinates. -/
def signed64 : WordType := ⟨-2 ^ 63, 2 ^ 63 - 1⟩

variable (w : WordType)

/-- An integer is in the range of a type of words. -/
def Holds (n : ℤ) : Prop := w.least ≤ n ∧ n ≤ w.greatest

instance (n : ℤ) : Decidable (w.Holds n) := inferInstanceAs (Decidable (_ ∧ _))

/-- The exact result of an operation, if it is in the range. -/
def hold? (n : ℤ) : Option ℤ := if w.Holds n then some n else none

/-- The quotient of two words, if the divisor is not zero. -/
def quotient? (a b : ℤ) : Option ℤ := if b = 0 then none else w.hold? (a / b)

/-- The remainder of two words, if the divisor is not zero. -/
def remainder? (a b : ℤ) : Option ℤ := if b = 0 then none else w.hold? (a % b)

variable {w}

theorem hold?_of_holds {n : ℤ} (h : w.Holds n) : w.hold? n = some n := if_pos h

theorem hold?_eq_some_iff {n m : ℤ} : w.hold? n = some m ↔ w.Holds n ∧ n = m := by
  unfold hold?
  split <;> simp [*]

theorem hold?_of_not_holds {n : ℤ} (h : ¬w.Holds n) : w.hold? n = none := if_neg h

theorem holds_unsigned64_natCast {n : ℕ} : unsigned64.Holds n ↔ n < indexLimit := by
  simp only [Holds, unsigned64, indexLimit, Nat.pow_eq]
  omega

theorem hold?_natCast {n : ℕ} (h : n < indexLimit) : unsigned64.hold? (n : ℤ) = some (n : ℤ) :=
  hold?_of_holds (holds_unsigned64_natCast.2 h)

theorem quotient?_natCast {a b : ℕ} (ha : a < indexLimit) (hb : 0 < b) :
    unsigned64.quotient? a b = some ((a / b : ℕ) : ℤ) := by
  rw [quotient?, if_neg (by omega), ← Int.natCast_div,
    hold?_natCast (Nat.lt_of_le_of_lt (Nat.div_le_self a b) ha)]

theorem remainder?_natCast {a b : ℕ} (ha : a < indexLimit) (hb : 0 < b) :
    unsigned64.remainder? a b = some ((a % b : ℕ) : ℤ) := by
  rw [remainder?, if_neg (by omega), ← Int.natCast_mod,
    hold?_natCast (Nat.lt_of_le_of_lt (Nat.mod_le a b) ha)]

end WordType

open WordType

/-! ### Which domains and regions exist -/

namespace Shape

/-- The product of three lengths from one, in the order of the axes, as long as it fits. -/
def countInWords? (s : PerAxis ℤ) : Option ℤ :=
  s.toList.foldlM (fun count length => unsigned64.hold? (count * length)) 1

/-- A step of the product that does not fit leaves no product. -/
theorem countInWords?_eq {s : Shape} (h : ∀ axis, 0 < s.get axis) :
    countInWords? (s.map fun (length : ℕ) => (length : ℤ)) =
      if s.count < indexLimit then some (s.count : ℤ) else none := by
  have hx : s.x ≤ s.x * s.y := Nat.le_mul_of_pos_right _ (h .y)
  have hxy : s.x * s.y ≤ s.count := Nat.le_mul_of_pos_right _ (h .z)
  have hsteps : countInWords? (s.map fun (length : ℕ) => (length : ℤ)) =
      (unsigned64.hold? (s.x : ℕ)).bind fun x =>
        (unsigned64.hold? (x * s.y)).bind fun xy => unsigned64.hold? (xy * s.z) := by
    simp [countInWords?, PerAxis.toList, PerAxis.map]
  by_cases hfits : s.x * s.y < indexLimit
  · rw [hsteps, hold?_natCast (by omega), Option.bind_some, ← Int.natCast_mul,
      hold?_natCast hfits, Option.bind_some, ← Int.natCast_mul]
    split
    · next hcount => exact hold?_natCast hcount
    · next hcount => exact hold?_of_not_holds (mt holds_unsigned64_natCast.1 hcount)
  · -- No partial product is above the whole one, as no length is zero.
    rw [hsteps, if_neg (by omega), Option.bind_eq_none_iff]
    intro x hx'
    obtain ⟨-, rfl⟩ := hold?_eq_some_iff.1 hx'
    rw [← Int.natCast_mul, hold?_of_not_holds (mt holds_unsigned64_natCast.1 hfits)]
    rfl

end Shape

/-- An extent is refused if an axis is empty or too long, or if the cells cannot be numbered. -/
theorem Domain.exists_ofExtent_iff {extent : Shape} :
    (∃ d, Domain.ofExtent extent = .ok d) ↔
      (∀ axis, 1 ≤ extent.get axis ∧ extent.get axis ≤ 2 ^ 31 - 1) ∧
        extent.x * extent.y * extent.z < 2 ^ 64 := by
  have hfaults : Axis.all.findSome? (axisFault? extent) = none ↔
      ∀ axis, 1 ≤ extent.get axis ∧ extent.get axis ≤ 2 ^ 31 - 1 := by
    simp only [List.findSome?_eq_none_iff, Axis.mem_all, forall_const, axisFault?_eq_none_iff]
    rfl
  unfold ofExtent
  split
  · next e h =>
      refine iff_of_false (by simp) fun hadmitted => ?_
      rw [hfaults.2 hadmitted.1] at h
      cases h
  · next h =>
      split
      · next hcount => exact iff_of_true ⟨_, rfl⟩ ⟨hfaults.1 h, hcount⟩
      · next hcount => exact iff_of_false (by simp) fun hadmitted => hcount hadmitted.2

namespace Region

/-- A region is refused if an axis gets too long, or if the cells cannot be numbered. -/
theorem exists_ofDepth_iff {d : Domain} {ghostLayers : ℕ} :
    (∃ r, ofDepth d ghostLayers = .ok r) ↔
      ghostLayers ≤ (2 ^ 31 - 1 - max d.extent.x (max d.extent.y d.extent.z)) / 2 ∧
        (d.extent.x + 2 * ghostLayers) * (d.extent.y + 2 * ghostLayers) *
          (d.extent.z + 2 * ghostLayers) < 2 ^ 64 := by
  unfold ofDepth
  split
  · next hdepth =>
      split
      · next hcount => exact iff_of_true ⟨_, rfl⟩ ⟨hdepth, hcount⟩
      · next hcount => exact iff_of_false (by simp) fun hadmitted => hcount hadmitted.2
  · next hdepth => exact iff_of_false (by simp) fun hadmitted => hdepth hadmitted.1

/-! ### The numbering with checks -/

variable (r : Region)

/-- The number of cells along an axis.  It is found as a word of 32 bits and used as one of 64. -/
def lengthInWords? (axis : Axis) : Option ℤ := do
  let ghosts ← unsigned32.hold? (2 * r.ghostLayers)
  let length ← unsigned32.hold? (r.domain.extent.get axis + ghosts)
  unsigned64.hold? length

/-- The number of cells along each axis. -/
def shapeInWords? : Option (PerAxis ℤ) := do
  return ⟨← r.lengthInWords? .x, ← r.lengthInWords? .y, ← r.lengthInWords? .z⟩

/-- The number of cells. -/
def cellCountInWords? : Option ℤ := do
  Shape.countInWords? (← r.shapeInWords?)

/-- A coordinate counted from the least one of the region. -/
def distanceInWords? (coordinate : ℤ) : Option ℤ := do
  let least ← signed64.hold? (-r.ghostLayers)
  signed64.hold? (coordinate - least)

/-- Whether a coordinate is one of the region along an axis of some length. -/
def reachesInWords? (length coordinate : ℤ) : Option Bool := do
  let distance ← r.distanceInWords? coordinate
  if distance < 0 then
    return false
  return (← unsigned64.hold? distance) < length

/-- Whether a cell belongs to the region.  The axes after the first one that fails are not visited. -/
def containsInWords? (cell : Cell) : Option Bool := do
  let shape ← r.shapeInWords?
  Axis.all.allM fun axis => r.reachesInWords? (shape.get axis) (cell.get axis)

/-- The number of a cell. -/
def indexInWords? (cell : Cell) : Option (Except GridError ℕ) := do
  if ← r.containsInWords? cell then
    let shape ← r.shapeInWords?
    let x ← unsigned64.hold? (← r.distanceInWords? cell.x)
    let y ← unsigned64.hold? (← r.distanceInWords? cell.y)
    let z ← unsigned64.hold? (← r.distanceInWords? cell.z)
    let row ← unsigned64.hold? ((← unsigned64.hold? (z * shape.y)) + y)
    let index ← unsigned64.hold? ((← unsigned64.hold? (row * shape.x)) + x)
    return .ok index.toNat
  else
    return .error (.cellOutOfRegion cell r.ghostLayers)

/-- A coordinate of the cell at some position along an axis. -/
def coordinateInWords? (position : ℤ) : Option ℤ := do
  let least ← signed64.hold? (-r.ghostLayers)
  signed64.hold? ((← signed64.hold? position) + least)

/-- The cell with a number, if there are enough cells. -/
def cellInWords? (index : UInt64) : Option (Option Cell) := do
  if (← r.cellCountInWords?) ≤ index.toNat then
    return none
  let shape ← r.shapeInWords?
  let x ← unsigned64.remainder? index.toNat shape.x
  let y ← unsigned64.remainder? (← unsigned64.quotient? index.toNat shape.x) shape.y
  let z ← unsigned64.quotient? index.toNat (← unsigned64.hold? (shape.x * shape.y))
  return some ⟨← r.coordinateInWords? x, ← r.coordinateInWords? y, ← r.coordinateInWords? z⟩

/-! ### No check fails -/

/-- An axis of a region has a cell, as one of its domain has. -/
theorem shape_pos (axis : Axis) : 0 < r.shape.get axis := by
  have hpos := r.domain.pos axis
  rw [get_shape]
  omega

theorem shape_le (axis : Axis) : r.shape.get axis ≤ 2 ^ 31 - 1 := r.le_maxLength axis

theorem lengthInWords?_eq (axis : Axis) : r.lengthInWords? axis = some (r.shape.get axis : ℤ) := by
  have hle := r.shape_le axis
  rw [get_shape] at hle
  have hghosts : unsigned32.Holds (2 * r.ghostLayers) := by
    simp only [Holds, unsigned32]
    omega
  have hlength : unsigned32.Holds (r.domain.extent.get axis + 2 * r.ghostLayers) := by
    simp only [Holds, unsigned32]
    omega
  have hwide : unsigned64.Holds (r.domain.extent.get axis + 2 * r.ghostLayers) := by
    simp only [Holds, unsigned64]
    omega
  simp only [lengthInWords?, hold?_of_holds hghosts, hold?_of_holds hlength, hold?_of_holds hwide,
    Option.bind_eq_bind, Option.bind_some, get_shape]
  push_cast
  rfl

theorem shapeInWords?_eq :
    r.shapeInWords? = some (r.shape.map fun (length : ℕ) => (length : ℤ)) := by
  simp only [shapeInWords?, lengthInWords?_eq, Option.bind_eq_bind, Option.bind_some]
  rfl

theorem cellCountInWords?_eq : r.cellCountInWords? = some (r.cellCount : ℤ) := by
  rw [cellCountInWords?, shapeInWords?_eq, Option.bind_eq_bind, Option.bind_some,
    Shape.countInWords?_eq r.shape_pos]
  exact if_pos r.count_lt

theorem holds_least : signed64.Holds (-r.ghostLayers) := by
  have hle := r.shape_le .x
  rw [get_shape] at hle
  simp only [Holds, signed64]
  omega

theorem distanceInWords?_eq {coordinate : ℤ} (h : signed64.Holds (coordinate + r.ghostLayers)) :
    r.distanceInWords? coordinate = some (coordinate + r.ghostLayers) := by
  rw [distanceInWords?, hold?_of_holds r.holds_least, Option.bind_eq_bind, Option.bind_some,
    sub_neg_eq_add, hold?_of_holds h]

theorem holds_unsigned64_of_signed64 {n : ℤ} (h : signed64.Holds n) (h0 : 0 ≤ n) :
    unsigned64.Holds n := by
  simp only [Holds, signed64, unsigned64] at *
  omega

theorem reachesInWords?_eq {length coordinate : ℤ}
    (h : signed64.Holds (coordinate + r.ghostLayers)) :
    r.reachesInWords? length coordinate =
      some (0 ≤ coordinate + r.ghostLayers && coordinate + r.ghostLayers < length) := by
  rw [reachesInWords?, r.distanceInWords?_eq h, Option.bind_eq_bind, Option.bind_some]
  by_cases hneg : coordinate + r.ghostLayers < 0
  · have h0 : ¬0 ≤ coordinate + r.ghostLayers := by omega
    simp [hneg, h0]
  · have h0 : 0 ≤ coordinate + r.ghostLayers := by omega
    simp [hneg, h0, hold?_of_holds (holds_unsigned64_of_signed64 h h0)]

theorem containsInWords?_eq {x : Cell} (h : ∀ axis, signed64.Holds (x.get axis + r.ghostLayers)) :
    r.containsInWords? x = some (r.contains x) := by
  have haxes : (fun axis => r.reachesInWords?
      ((r.shape.map fun (length : ℕ) => (length : ℤ)).get axis) (x.get axis)) = fun axis =>
        pure (0 ≤ x.get axis + r.ghostLayers && x.get axis + r.ghostLayers < r.shape.get axis) := by
    funext axis
    rw [r.reachesInWords?_eq (h axis), PerAxis.get_map]
    rfl
  rw [containsInWords?, shapeInWords?_eq, Option.bind_eq_bind, Option.bind_some, haxes,
    List.allM_pure]
  rfl

/-- The distances of a cell of the region are no longer than the region. -/
theorem holds_distance {r : Region} {x : Cell} (hx : r.contains x) (axis : Axis) :
    signed64.Holds (x.get axis + r.ghostLayers) := by
  have hlt := position_lt hx axis
  have hle := r.shape_le axis
  rw [← get_position hx]
  simp only [Holds, signed64]
  omega

theorem distanceInWords?_of_contains {r : Region} {x : Cell} (hx : r.contains x) (axis : Axis) :
    r.distanceInWords? (x.get axis) = some ((r.position x).get axis : ℤ) := by
  rw [r.distanceInWords?_eq (holds_distance hx axis), ← get_position hx]

/-- No part of the number of a cell is above that number, so all of them fit as it does. -/
theorem indexInWords?_eq {x : Cell} (h : ∀ axis, signed64.Holds (x.get axis + r.ghostLayers)) :
    r.indexInWords? x = some (r.indexOf x) := by
  rw [indexInWords?, r.containsInWords?_eq h, indexOf, Option.bind_eq_bind, Option.bind_some]
  split
  · next hx =>
      set p := r.position x with hp
      have hx0 : r.distanceInWords? x.x = some (p.x : ℤ) := distanceInWords?_of_contains hx .x
      have hy0 : r.distanceInWords? x.y = some (p.y : ℤ) := distanceInWords?_of_contains hx .y
      have hz0 : r.distanceInWords? x.z = some (p.z : ℤ) := distanceInWords?_of_contains hx .z
      have hindex : (p.z * r.shape.y + p.y) * r.shape.x + p.x < indexLimit :=
        (r.flatten_position_lt hx).trans r.count_lt
      have hrow : p.z * r.shape.y + p.y ≤ (p.z * r.shape.y + p.y) * r.shape.x :=
        Nat.le_mul_of_pos_right _ (r.shape_pos .x)
      have hz1 : p.z ≤ p.z * r.shape.y := Nat.le_mul_of_pos_right _ (r.shape_pos .y)
      have hx1 : p.x < indexLimit := by omega
      have hy1 : p.y < indexLimit := by omega
      simp only [shapeInWords?_eq, hx0, hy0, hz0, PerAxis.map, Option.bind_eq_bind,
        Option.bind_some, ← Int.natCast_mul, ← Int.natCast_add, hold?_natCast hx1,
        hold?_natCast hy1, hold?_natCast (show p.z < indexLimit by omega),
        hold?_natCast (show p.z * r.shape.y < indexLimit by omega),
        hold?_natCast (show p.z * r.shape.y + p.y < indexLimit by omega),
        hold?_natCast (show (p.z * r.shape.y + p.y) * r.shape.x < indexLimit by omega),
        hold?_natCast hindex, Int.toNat_natCast]
      rfl
  · next hx => rfl

theorem coordinateInWords?_eq {position : ℕ} {axis : Axis} (h : position < r.shape.get axis) :
    r.coordinateInWords? position = some ((position : ℤ) - r.ghostLayers) := by
  have hle := r.shape_le axis
  have hposition : signed64.Holds (position : ℤ) := by
    simp only [Holds, signed64]
    omega
  have hcoordinate : signed64.Holds ((position : ℤ) + -r.ghostLayers) := by
    have hghosts := get_shape r axis
    simp only [Holds, signed64]
    omega
  rw [coordinateInWords?, hold?_of_holds r.holds_least, Option.bind_eq_bind, Option.bind_some,
    hold?_of_holds hposition, Option.bind_some, hold?_of_holds hcoordinate]
  rfl

theorem cellInWords?_eq (index : UInt64) :
    r.cellInWords? index = some (r.cellAt? index.toNat) := by
  have hindex : index.toNat < indexLimit := index.toNat_lt
  rw [cellInWords?, cellCountInWords?_eq, Option.bind_eq_bind, Option.bind_some, cellAt?]
  split
  · next hcount => rw [if_neg (by omega)]; rfl
  · next hcount =>
      have hlt : index.toNat < r.shape.count := by
        have hcells : r.cellCount = r.shape.count := rfl
        omega
      have hx0 : 0 < r.shape.x := r.shape_pos .x
      have hy0 : 0 < r.shape.y := r.shape_pos .y
      have hplane : 0 < r.shape.x * r.shape.y := Nat.mul_pos hx0 hy0
      have hplane' : r.shape.x * r.shape.y ≤ r.shape.count :=
        Nat.le_mul_of_pos_right _ (r.shape_pos .z)
      have hcount' : r.shape.count < indexLimit := r.count_lt
      have hrows : index.toNat / r.shape.x < indexLimit :=
        (Nat.div_le_self _ _).trans_lt hindex
      have hx : r.coordinateInWords? ((index.toNat % r.shape.x : ℕ) : ℤ) = _ :=
        r.coordinateInWords?_eq (Shape.position_lt hlt .x)
      have hy : r.coordinateInWords? ((index.toNat / r.shape.x % r.shape.y : ℕ) : ℤ) = _ :=
        r.coordinateInWords?_eq (Shape.position_lt hlt .y)
      have hz : r.coordinateInWords? ((index.toNat / (r.shape.x * r.shape.y) : ℕ) : ℤ) = _ :=
        r.coordinateInWords?_eq (Shape.position_lt hlt .z)
      rw [if_pos (by omega)]
      simp only [shapeInWords?_eq, PerAxis.map, Option.bind_eq_bind, Option.bind_some,
        remainder?_natCast hindex hx0, quotient?_natCast hindex hx0, remainder?_natCast hrows hy0,
        ← Int.natCast_mul, hold?_natCast (hplane'.trans_lt hcount'),
        quotient?_natCast hindex hplane, hx, hy, hz]
      rfl

/-- A domain exists exactly if no axis is empty or too long and the cells can be numbered, and a region
exists exactly if its ghost layers leave room for that.  The product that decides it gives up exactly
if it is too great as a whole.  For every region that exists, no step of counting the cells, of finding
the cell with a number, or of finding the number of a cell is out of the range of its words. -/
theorem numbering_fits_words :
    (∀ extent : Shape, (∃ d, Domain.ofExtent extent = .ok d) ↔
      (∀ axis, 1 ≤ extent.get axis ∧ extent.get axis ≤ 2 ^ 31 - 1) ∧
        extent.x * extent.y * extent.z < 2 ^ 64) ∧
    (∀ (d : Domain) (ghostLayers : ℕ), (∃ r, ofDepth d ghostLayers = .ok r) ↔
      ghostLayers ≤ (2 ^ 31 - 1 - max d.extent.x (max d.extent.y d.extent.z)) / 2 ∧
        (d.extent.x + 2 * ghostLayers) * (d.extent.y + 2 * ghostLayers) *
          (d.extent.z + 2 * ghostLayers) < 2 ^ 64) ∧
    (∀ shape : Shape, (∀ axis, 0 < shape.get axis) →
      Shape.countInWords? (shape.map fun (length : ℕ) => (length : ℤ)) =
        if shape.count < 2 ^ 64 then some (shape.count : ℤ) else none) ∧
    ∀ r : Region, r.cellCountInWords? = some (r.cellCount : ℤ) ∧
      (∀ index, r.cellInWords? index = some (r.cellAt? index.toNat)) ∧
      ∀ x, r.contains x → r.indexInWords? x = some (r.indexOf x) :=
  ⟨fun _ => Domain.exists_ofExtent_iff, fun _ _ => exists_ofDepth_iff,
    fun _ => Shape.countInWords?_eq, fun r => ⟨r.cellCountInWords?_eq, r.cellInWords?_eq,
      fun _ hx => r.indexInWords?_eq (holds_distance hx)⟩⟩

/-- A region with the longest axes that there are, and nearly as many cells as there are indices. -/
def longest : Region where
  domain :=
    { extent := ⟨2 ^ 31 - 3, 2 ^ 31 - 3, 2⟩
      pos := fun axis => by cases axis <;> decide
      le_maxLength := fun axis => by cases axis <;> decide
      count_lt := by decide }
  ghostLayers := 1
  le_maxLength axis := by cases axis <;> decide
  count_lt := by decide

/-- The last ghost cell of a region at the bounds has a number that fits. -/
theorem numbering_fits_words_longest :
    (∀ axis, 0 < longest.shape.get axis) ∧
      Shape.countInWords? (longest.shape.map fun (length : ℕ) => (length : ℤ)) =
        some (4 * (2 ^ 31 - 1) ^ 2) ∧
      longest.contains ⟨2 ^ 31 - 3, 2 ^ 31 - 3, 2⟩ ∧
      longest.indexInWords? ⟨2 ^ 31 - 3, 2 ^ 31 - 3, 2⟩ = some (.ok (4 * (2 ^ 31 - 1) ^ 2 - 1)) := by
  obtain ⟨-, -, hproduct, hregion⟩ := numbering_fits_words
  have hpos : ∀ axis, 0 < longest.shape.get axis := by
    intro axis
    cases axis <;> decide
  have hcontains : longest.contains ⟨2 ^ 31 - 3, 2 ^ 31 - 3, 2⟩ := by decide
  exact ⟨hpos, (hproduct _ hpos).trans (by decide), hcontains,
    ((hregion longest).2.2 _ hcontains).trans (by decide)⟩

end Region

end Electrokinetics
