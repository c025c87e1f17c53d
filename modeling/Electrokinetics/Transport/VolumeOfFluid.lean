/-
Advection by displaced boxes of fluid.

Every cell is a box of fluid that its velocity displaces by at most one cell.  The flux through the
face towards a neighbour is the part of the displaced box of this cell that lands in the neighbour,
minus the part of the neighbour's box that lands in this cell.  A diagonal neighbour receives fluid
only from a box that moves along all axes of the diagonal at once.

Main definitions:

* `velocityAt` — the three components of a velocity field;
* `displacedPart` — the part of a displaced box that lands in a neighbour;
* `advectiveFlux` — the flux through every staggered face.
-/

import Electrokinetics.Transport.FiniteVolume

set_option relaxedAutoImplicit false
set_option autoImplicit false

namespace Electrokinetics

variable {K : Type} [Scalar K]

/-- The three components of a velocity field, at an offset from the current cell. -/
def velocityAt {K : Type} (v : Field) (n : Offset) : PerAxis (Expr K) :=
  PerAxis.ofFn fun axis => .access (v.location axis.index n)

/-- The distance that a box moves along an axis of `n`, counted towards the neighbour at
`sense · n`. -/
def motionAlong (velocity : PerAxis (Expr K)) (n : Offset) (sense : K) (axis : Axis) : Expr K :=
  .num (Scalar.mul sense (Scalar.ofInt (n.get axis))) * velocity.get axis

/-- The part of a box, displaced by `velocity`, that lands in the neighbour at `sense · n`: along
an axis of `n` the distance that it moves, along any other axis the length that stays.  It is zero
unless the box moves towards the neighbour along every axis of `n`. -/
def displacedPart (velocity : PerAxis (Expr K)) (n : Offset) (sense : K) : Expr K :=
  let gates := n.nonzeroAxes.map fun axis =>
    Cond.gt (motionAlong velocity n sense axis) .zero
  let overlap := Axis.all.map fun axis =>
    if n.get axis = 0 then .one - (velocity.get axis).abs
    else motionAlong velocity n sense axis
  .piecewise (.and gates) (.mul overlap) .zero

/-- The flux of `c` in the velocity `v` through each staggered face of `j`. -/
def advectiveFlux (j v c : Field) : Except BuildError (Collection K) := do
  let stencil ← j.stencil
  let _ ← v.access Axis.z.index 0
  Collection.writeFaces j stencil fun n =>
    displacedPart (velocityAt v 0) n Scalar.one * c.center -
      displacedPart (velocityAt v n) n Scalar.negOne * c.neighbor n

end Electrokinetics
