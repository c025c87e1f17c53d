/-
Boxes of cells and their enumeration.

The cells of a box are numbered with x fastest and z slowest.  A position and its number determine
each other, which is the arithmetic of numbers with mixed radices.

Main definitions and results:

* `Shape.count`, `Shape.flatten`, `Shape.position` — how many cells a box has, the number of a
  position, and the position with a number;
* `Shape.flatten_lt`, `Shape.position_lt` — both stay in range;
* `Shape.position_flatten`, `Shape.flatten_position` — they are inverse to each other.
-/

import Electrokinetics.Grid.Axis

set_option relaxedAutoImplicit false
set_option autoImplicit false

namespace Electrokinetics

/-- The number of cells of a box along each axis. -/
abbrev Shape := PerAxis Nat

namespace Shape

/-- The number of cells of a box. -/
def count (s : Shape) : Nat := s.x * s.y * s.z

/-- The number of a position: x counts ones, y rows and z planes. -/
def flatten (s : Shape) (p : PerAxis Nat) : Nat := (p.z * s.y + p.y) * s.x + p.x

/-- The position with a number. -/
def position (s : Shape) (i : Nat) : PerAxis Nat := ⟨i % s.x, i / s.x % s.y, i / (s.x * s.y)⟩

theorem count_pos {s : Shape} (h : ∀ axis, 0 < s.get axis) : 0 < s.count :=
  Nat.mul_pos (Nat.mul_pos (h .x) (h .y)) (h .z)

/-- A digit and a number of higher digits stay below the product of their bounds. -/
theorem mul_add_lt {a b m n : Nat} (ha : a < m) (hb : b < n) : a * n + b < m * n := by
  have h := Nat.mul_le_mul_right n (Nat.succ_le_of_lt ha)
  rw [Nat.succ_mul] at h
  omega

theorem flatten_lt {s : Shape} {p : PerAxis Nat} (h : ∀ axis, p.get axis < s.get axis) :
    s.flatten p < s.count := by
  have hzy : p.z * s.y + p.y < s.z * s.y := mul_add_lt (h .z) (h .y)
  have hall : (p.z * s.y + p.y) * s.x + p.x < s.z * s.y * s.x := mul_add_lt hzy (h .x)
  have hcount : s.z * s.y * s.x = s.count := by
    rw [count, Nat.mul_assoc, Nat.mul_comm s.z, Nat.mul_comm s.y]
  rw [flatten, ← hcount]
  exact hall

theorem position_flatten {s : Shape} {p : PerAxis Nat} (h : ∀ axis, p.get axis < s.get axis) :
    s.position (s.flatten p) = p := by
  have hx : p.x < s.x := h .x
  have hy : p.y < s.y := h .y
  have hdiv : s.flatten p / s.x = p.z * s.y + p.y := by
    rw [flatten, Nat.mul_comm, Nat.mul_add_div (Nat.zero_lt_of_lt hx), Nat.div_eq_of_lt hx,
      Nat.add_zero]
  have hmod : s.flatten p % s.x = p.x := by
    rw [flatten, Nat.mul_comm, Nat.mul_add_mod, Nat.mod_eq_of_lt hx]
  obtain ⟨x, y, z⟩ := p
  simp only at hx hy hdiv hmod
  rw [position, ← Nat.div_div_eq_div_mul, hdiv, hmod, Nat.mul_comm z, Nat.mul_add_mod,
    Nat.mod_eq_of_lt hy, Nat.mul_add_div (Nat.zero_lt_of_lt hy), Nat.div_eq_of_lt hy, Nat.add_zero]

theorem flatten_position (s : Shape) (i : Nat) : s.flatten (s.position i) = i := by
  have hz : i / (s.x * s.y) = i / s.x / s.y := (Nat.div_div_eq_div_mul ..).symm
  simp only [flatten, position, hz]
  rw [Nat.mul_comm (i / s.x / s.y), Nat.div_add_mod, Nat.mul_comm (i / s.x), Nat.div_add_mod]

theorem position_lt {s : Shape} {i : Nat} (h : i < s.count) (axis : Axis) :
    (s.position i).get axis < s.get axis := by
  have hxy : 0 < s.x * s.y := Nat.pos_of_ne_zero fun h0 => by simp [count, h0] at h
  cases axis with
  | x => exact Nat.mod_lt _ (Nat.pos_of_mul_pos_right hxy)
  | y => exact Nat.mod_lt _ (Nat.pos_of_mul_pos_left hxy)
  | z => exact Nat.div_lt_of_lt_mul h

end Shape

end Electrokinetics
