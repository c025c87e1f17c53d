/-
Axes, and triples indexed by them.

Offsets, cells, extents, gradients and the counters of a random key all hold one item per axis.
They share one structure, so that sums, negatives and maps are defined once.

Main definitions:

* `Axis` — the three axes;
* `PerAxis` — one item per axis, with `get`, `ofFn`, `map` and component-wise arithmetic;
* `Offset`, `Cell` — relative and absolute positions on the grid;
* `Offset.nonzeroAxes`, `Offset.norm` — the axes that a direction has a component on, and its
  Euclidean length.
-/

import Electrokinetics.Scalar

set_option relaxedAutoImplicit false
set_option autoImplicit false

namespace Electrokinetics

/-- One of the three spatial axes. -/
inductive Axis where
  | x
  | y
  | z
  deriving DecidableEq, Repr, Inhabited

namespace Axis

/-- The axes in index order. -/
def all : List Axis := [x, y, z]

/-- The position of an axis in index order. -/
def index : Axis → Nat
  | x => 0
  | y => 1
  | z => 2

/-- The axis with a given index, if there is one. -/
def ofIndex? : Nat → Option Axis
  | 0 => some x
  | 1 => some y
  | 2 => some z
  | _ => none

/-- The text of an axis is its index. -/
def text (axis : Axis) : String := toString axis.index

@[simp] theorem ofIndex?_index (axis : Axis) : ofIndex? axis.index = some axis := by
  cases axis <;> rfl

theorem ofIndex?_eq_some_iff {i : Nat} {axis : Axis} :
    ofIndex? i = some axis ↔ axis.index = i := by
  constructor
  · intro h
    match i with
    | 0 | 1 | 2 => cases h; rfl
    | _ + 3 => cases h
  · rintro rfl
    exact ofIndex?_index axis

@[simp] theorem mem_all (axis : Axis) : axis ∈ all := by cases axis <;> simp [all]

end Axis

/-- One item for each axis. -/
structure PerAxis (α : Type) where
  x : α
  y : α
  z : α
  deriving DecidableEq, Repr, Hashable, Inhabited

namespace PerAxis

variable {α β γ : Type}

/-- The item of an axis. -/
def get (v : PerAxis α) : Axis → α
  | .x => v.x
  | .y => v.y
  | .z => v.z

/-- The triple with given items. -/
def ofFn (f : Axis → α) : PerAxis α := ⟨f .x, f .y, f .z⟩

/-- The same item for every axis. -/
def replicate (a : α) : PerAxis α := ⟨a, a, a⟩

/-- Applies a function to every item. -/
def map (f : α → β) (v : PerAxis α) : PerAxis β := ⟨f v.x, f v.y, f v.z⟩

/-- Applies a function to every item and its axis. -/
def mapAxis (f : Axis → α → β) (v : PerAxis α) : PerAxis β := ⟨f .x v.x, f .y v.y, f .z v.z⟩

/-- Applies a function to the items of two triples. -/
def zipWith (f : α → β → γ) (v : PerAxis α) (w : PerAxis β) : PerAxis γ :=
  ⟨f v.x w.x, f v.y w.y, f v.z w.z⟩

/-- The items in index order. -/
def toList (v : PerAxis α) : List α := [v.x, v.y, v.z]

/-- The items in index order, in square brackets. -/
def bracketed (item : α → String) (v : PerAxis α) : String :=
  "[" ++ item v.x ++ ", " ++ item v.y ++ ", " ++ item v.z ++ "]"

@[simp] theorem get_ofFn (f : Axis → α) (axis : Axis) : (ofFn f).get axis = f axis := by
  cases axis <;> rfl

@[simp] theorem get_replicate (a : α) (axis : Axis) : (replicate a).get axis = a := by
  cases axis <;> rfl

@[simp] theorem get_map (f : α → β) (v : PerAxis α) (axis : Axis) :
    (v.map f).get axis = f (v.get axis) := by
  cases axis <;> rfl

@[simp] theorem get_mapAxis (f : Axis → α → β) (v : PerAxis α) (axis : Axis) :
    (v.mapAxis f).get axis = f axis (v.get axis) := by
  cases axis <;> rfl

@[simp] theorem get_zipWith (f : α → β → γ) (v : PerAxis α) (w : PerAxis β) (axis : Axis) :
    (zipWith f v w).get axis = f (v.get axis) (w.get axis) := by
  cases axis <;> rfl

@[ext] theorem ext_get {v w : PerAxis α} (h : ∀ axis, v.get axis = w.get axis) : v = w := by
  cases v
  cases w
  have hx := h .x
  have hy := h .y
  have hz := h .z
  simp only [get] at hx hy hz
  simp [hx, hy, hz]

theorem map_map (g : β → γ) (f : α → β) (v : PerAxis α) : (v.map f).map g = v.map (g ∘ f) := rfl

instance : Zero (PerAxis Int) := ⟨replicate 0⟩

instance [Add α] : Add (PerAxis α) := ⟨zipWith (· + ·)⟩

instance [Neg α] : Neg (PerAxis α) := ⟨map (-·)⟩

@[simp] theorem get_zero (axis : Axis) : (0 : PerAxis Int).get axis = 0 :=
  get_replicate 0 axis

@[simp] theorem get_add [Add α] (v w : PerAxis α) (axis : Axis) :
    (v + w).get axis = v.get axis + w.get axis :=
  get_zipWith _ v w axis

@[simp] theorem get_neg [Neg α] (v : PerAxis α) (axis : Axis) : (-v).get axis = -v.get axis :=
  get_map _ v axis

end PerAxis

/-- A position relative to the current cell. -/
abbrev Offset := PerAxis Int

/-- An absolute position on the grid.  Cells beyond the interior may have negative coordinates.
Coordinates have no bounds here, so a cell can always be moved; a program with coordinates of 64 bits
agrees as long as no sum leaves their range. -/
abbrev Cell := PerAxis Int

/-- The offset of length one along an axis. -/
def Axis.unit (axis : Axis) : Offset := PerAxis.ofFn fun other => if other = axis then 1 else 0

namespace Offset

/-- The axes along which an offset has a component, in index order. -/
def nonzeroAxes (n : Offset) : List Axis := Axis.all.filter fun axis => n.get axis ≠ 0

/-- The square of the Euclidean length. -/
def normSq (n : Offset) : Int := n.x * n.x + n.y * n.y + n.z * n.z

/-- The Euclidean length. -/
def norm {K : Type} [Scalar K] (n : Offset) : K := Scalar.sqrt (Scalar.ofInt n.normSq)

@[simp] theorem mem_nonzeroAxes {n : Offset} {axis : Axis} :
    axis ∈ n.nonzeroAxes ↔ n.get axis ≠ 0 := by
  simp [nonzeroAxes]

@[simp] theorem normSq_neg (n : Offset) : normSq (-n) = normSq n := by
  have h : -n = ⟨-n.x, -n.y, -n.z⟩ := rfl
  simp only [h, normSq, Int.neg_mul_neg]

end Offset

end Electrokinetics
