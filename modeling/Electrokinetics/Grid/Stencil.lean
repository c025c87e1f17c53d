/-
Neighbour stencils and their staggered halves.

The directions follow the compass: `W` and `E` along x, `S` and `N` along y, `B` and `T` along z.
Of every pair of opposite directions the staggered half keeps the one whose first non-zero component
is negative.  A flux is stored once for each staggered direction `n`; its value at a cell `x` is the
flux through the face between `x` and `x + n`.

Main definitions:

* `Stencil`, `Stencil.ofArity` — the three stencils, by number of neighbours;
* `Stencil.directions`, `Stencil.staggered` — all neighbours, and one of each pair;
* `Stencil.faceArea` — the sum of the lengths of the staggered directions over three;
* `Stencil.noiseFactor` — the square root of the inverse face area, in closed form.
-/

import Electrokinetics.BuildError
import Electrokinetics.Grid.Axis

set_option relaxedAutoImplicit false
set_option autoImplicit false

namespace Electrokinetics

/-- A neighbour direction with its compass name. -/
structure Direction where
  /-- The compass name. -/
  name : String
  /-- The offset of the neighbour. -/
  offset : Offset
  deriving DecidableEq, Repr

/-- A neighbour stencil in three dimensions. -/
inductive Stencil where
  /-- The neighbours across faces. -/
  | d3q7
  /-- The neighbours across faces and edges. -/
  | d3q19
  /-- The neighbours across faces, edges and corners. -/
  | d3q27
  deriving DecidableEq, Repr, Inhabited

namespace Stencil

/-- The 26 neighbours: faces, then edges, then corners. -/
def allDirections : List Direction :=
  [⟨"N", ⟨0, 1, 0⟩⟩, ⟨"S", ⟨0, -1, 0⟩⟩, ⟨"W", ⟨-1, 0, 0⟩⟩, ⟨"E", ⟨1, 0, 0⟩⟩,
    ⟨"T", ⟨0, 0, 1⟩⟩, ⟨"B", ⟨0, 0, -1⟩⟩,
    ⟨"NW", ⟨-1, 1, 0⟩⟩, ⟨"NE", ⟨1, 1, 0⟩⟩, ⟨"SW", ⟨-1, -1, 0⟩⟩, ⟨"SE", ⟨1, -1, 0⟩⟩,
    ⟨"TN", ⟨0, 1, 1⟩⟩, ⟨"TS", ⟨0, -1, 1⟩⟩, ⟨"TW", ⟨-1, 0, 1⟩⟩, ⟨"TE", ⟨1, 0, 1⟩⟩,
    ⟨"BN", ⟨0, 1, -1⟩⟩, ⟨"BS", ⟨0, -1, -1⟩⟩, ⟨"BW", ⟨-1, 0, -1⟩⟩, ⟨"BE", ⟨1, 0, -1⟩⟩,
    ⟨"TNE", ⟨1, 1, 1⟩⟩, ⟨"TNW", ⟨-1, 1, 1⟩⟩, ⟨"TSE", ⟨1, -1, 1⟩⟩, ⟨"TSW", ⟨-1, -1, 1⟩⟩,
    ⟨"BNE", ⟨1, 1, -1⟩⟩, ⟨"BNW", ⟨-1, 1, -1⟩⟩, ⟨"BSE", ⟨1, -1, -1⟩⟩, ⟨"BSW", ⟨-1, -1, -1⟩⟩]

/-- One of each pair of opposite neighbours, in the order faces, edges, corners. -/
def allStaggered : List Direction :=
  [⟨"W", ⟨-1, 0, 0⟩⟩, ⟨"S", ⟨0, -1, 0⟩⟩, ⟨"B", ⟨0, 0, -1⟩⟩,
    ⟨"SW", ⟨-1, -1, 0⟩⟩, ⟨"NW", ⟨-1, 1, 0⟩⟩, ⟨"BW", ⟨-1, 0, -1⟩⟩, ⟨"TW", ⟨-1, 0, 1⟩⟩,
    ⟨"BS", ⟨0, -1, -1⟩⟩, ⟨"TS", ⟨0, -1, 1⟩⟩,
    ⟨"BSW", ⟨-1, -1, -1⟩⟩, ⟨"BNW", ⟨-1, 1, -1⟩⟩, ⟨"TSW", ⟨-1, -1, 1⟩⟩, ⟨"TNW", ⟨-1, 1, 1⟩⟩]

/-- The number of neighbours. -/
def arity : Stencil → Nat
  | d3q7 => 6
  | d3q19 => 18
  | d3q27 => 26

/-- The stencil with a given number of neighbours. -/
def ofArity : Nat → Except BuildError Stencil
  | 6 => .ok d3q7
  | 18 => .ok d3q19
  | 26 => .ok d3q27
  | arity => .error (.unsupportedStencil arity)

/-- The number of directions with the resting one. -/
def size (s : Stencil) : Nat := s.arity + 1

/-- The name, by dimension and number of directions. -/
def text (s : Stencil) : String := "D3Q" ++ toString s.size

/-- The neighbours.  A smaller stencil has the first ones of a larger stencil. -/
def directions (s : Stencil) : List Direction := allDirections.take s.arity

/-- The staggered half: one of each pair of opposite neighbours. -/
def staggered (s : Stencil) : List Direction := allStaggered.take (s.arity / 2)

/-- The position of an offset in the staggered half. -/
def staggeredIndex? (s : Stencil) (n : Offset) : Option Nat :=
  s.staggered.findIdx? fun direction => direction.offset = n

section Scalars

variable {K : Type} [Scalar K]

open Scalar (ofInt)

/-- The effective face area: the lengths of the staggered directions, summed, over three.  A sum of
face fluxes divided by it is a divergence that does not depend on the connectivity. -/
def faceArea (s : Stencil) : K :=
  Scalar.div (Scalar.sum (s.staggered.map fun direction => direction.offset.norm)) (ofInt 3)

/-- The square root of the inverse face area, in closed form. -/
def noiseFactor : Stencil → K
  | d3q7 => Scalar.one
  | d3q19 =>
    let edges := Scalar.mul Scalar.two (Scalar.sqrtNat 2)
    Scalar.sqrt (Scalar.div Scalar.one (Scalar.add Scalar.one edges))
  | d3q27 =>
    let edges := Scalar.mul Scalar.two (Scalar.sqrtNat 2)
    let corners := Scalar.mul (Scalar.div (ofInt 4) (ofInt 3)) (Scalar.sqrtNat 3)
    Scalar.sqrt
      (Scalar.div Scalar.one (Scalar.add (Scalar.add Scalar.one edges) corners))

end Scalars

@[simp] theorem ofArity_arity (s : Stencil) : ofArity s.arity = .ok s := by cases s <;> rfl

@[simp] theorem length_directions (s : Stencil) : s.directions.length = s.arity := by
  cases s <;> rfl

theorem length_staggered (s : Stencil) : s.staggered.length = s.arity / 2 := by cases s <;> rfl

/-- Of every pair of opposite neighbours exactly one is staggered. -/
theorem staggered_or_opposite (s : Stencil) :
    ∀ direction ∈ s.directions,
      (direction.offset ∈ s.staggered.map Direction.offset) ≠
        (-direction.offset ∈ s.staggered.map Direction.offset) := by
  cases s <;> decide

theorem nodup_staggered (s : Stencil) : (s.staggered.map Direction.offset).Nodup := by
  cases s <;> decide

/-- The stencil of faces, edges and corners has the staggered directions of every stencil. -/
theorem staggered_sublist (s : Stencil) : s.staggered.Sublist d3q27.staggered :=
  List.take_sublist (s.arity / 2) allStaggered

end Stencil

end Electrokinetics
