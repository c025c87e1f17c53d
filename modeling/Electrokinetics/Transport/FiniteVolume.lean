/-
Finite volumes on staggered faces.

A continuum flux is brought onto the grid by evaluating it on the face between a cell and its
neighbour `n`: a field there is the mean of its two values, and a derivative is a difference of
values near the face.  The flux through the face is the projection of the flux vector on the unit
normal.  The update of a cell then sums inflow minus outflow over all faces and divides by the
effective face area of the stencil.

Main definitions:

* `faceAssignments`, `Collection.writeFaces` — one assignment for each face of a flux field;
* `Expr.onFace`, `Expr.faceDerivative` — an expression and a derivative on a face;
* `FiniteVolume` — a transported field and its continuum flux;
* `FiniteVolume.faceFlux`, `FiniteVolume.update` — the flux through every face, and
  the update of the transported field from a stored flux;
* `concentrationUpdate` — the update for a diffusing field.
-/

import Electrokinetics.Assignment
import Electrokinetics.Field
import Electrokinetics.Transport.Diffusion

set_option relaxedAutoImplicit false
set_option autoImplicit false

namespace Electrokinetics

variable {K : Type} [Scalar K]

/-! ### Faces -/

/-- The assignments that write, for every staggered direction of a stencil, the face of `j` at the
current cell. -/
def faceAssignments {K : Type} (j : Field) (stencil : Stencil) (value : Offset → Expr K) :
    Except BuildError (List (Assignment K)) :=
  stencil.staggered.zipIdx.mapM fun (direction, k) => do
    let face ← j.face k 0
    return ⟨face, value direction.offset⟩

/-- The collection of these assignments. -/
def Collection.writeFaces {K : Type} (j : Field) (stencil : Stencil) (value : Offset → Expr K) :
    Except BuildError (Collection K) := do
  let main ← faceAssignments j stencil value
  ofMain main

namespace Expr

/-- The derivative of an expression along an axis, on the face towards `n`.  Along an axis on which
the normal has a component, the difference across the face is shared equally by all such axes, so
that the projected derivative is the difference exactly.  Along any other axis it is the mean of the
central differences at the two cells. -/
def faceDerivative (arg : Expr K) (axis : Axis) (n : Offset) : Expr K :=
  if n.get axis = 0 then
    let forward := axis.unit
    let back := -axis.unit
    (arg.shift (n + forward) - arg.shift (n + back) + arg.shift forward - arg.shift back) /
      (Scalar.ofInt 4 : K)
  else
    let shared : K := Scalar.ofInt n.nonzeroAxes.length
    (arg.shift n - arg) / Scalar.mul (Scalar.ofInt (n.get axis)) shared

/-- An expression on the face between the current cell and its neighbour `n`: field reads become
means and derivatives become differences. -/
def onFace (n : Offset) : Expr K → Expr K :=
  transform fun e => match e with
    | .access a => some ((.access (a.shift n) + .access a) * .num Scalar.half)
    | .deriv arg axis => some (arg.faceDerivative axis n)
    | _ => none

end Expr

/-! ### Flux and continuity -/

/-- A transported field with its continuum flux. -/
structure FiniteVolume (K : Type) where
  /-- The transported field. -/
  field : Field
  /-- The flux vector. -/
  flux : PerAxis (Expr K)

namespace FiniteVolume

instance : BEq (FiniteVolume K) :=
  ⟨fun v w => v.field == w.field && v.flux.x == w.flux.x && v.flux.y == w.flux.y &&
    v.flux.z == w.flux.z⟩

/-- The scalar product of the flux with an offset. -/
def projected (v : FiniteVolume K) (n : Offset) : Expr K :=
  .add (n.nonzeroAxes.map fun axis => .num (Scalar.ofInt (n.get axis)) * v.flux.get axis)

/-- The flux through each staggered face of `j`, projected on the unit normal. -/
def faceFlux (v : FiniteVolume K) (j : Field) : Except BuildError (Collection K) := do
  let stencil ← j.stencil
  Collection.writeFaces j stencil fun n => (v.projected n).onFace n / (n.norm : K)

/-- The inflow through the opposite face minus the outflow through the face, for each staggered
direction. -/
def balance (j : Field) (stencil : Stencil) : Except BuildError (List (Expr K)) :=
  stencil.staggered.zipIdx.mapM fun (direction, k) => do
    let inflow ← j.face k (-direction.offset)
    let outflow ← j.face k 0
    return .access inflow - .access outflow

/-- The update of the transported field from the stored flux: the balance of all faces over the
effective face area.  On a periodic grid every face occurs once with each sign. -/
def update (v : FiniteVolume K) (j : Field) : Except BuildError (Collection K) := do
  let stencil ← j.stencil
  let faces ← balance j stencil
  let weight : K := Scalar.div Scalar.one stencil.faceArea
  Collection.ofMain [⟨v.field.centerAccess, v.field.center + .add faces * .num weight⟩]

end FiniteVolume

/-- The update of a diffusing field from the stored flux `j`. -/
def concentrationUpdate (c pot j : Field) (d z : Expr K) : Except BuildError (Collection K) :=
  FiniteVolume.update ⟨c, diffusionFlux c.center pot.center d z⟩ j

end Electrokinetics
