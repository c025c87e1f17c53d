/-
Initial values and parameters for sweeps.

Main definitions:

* `transportBindings` — the parameters of the transport kernels;
* `Store.fillRandom`, `Store.fillLinear`, `Store.fillVelocity`, `Store.fillZero` — field profiles;
* `referenceDomain` — the domain on which kernels are timed.
-/

import Electrokinetics.Expr.Env
import Electrokinetics.Noise.Draw
import Electrokinetics.Parameter
import Electrokinetics.Sweep.Store

set_option relaxedAutoImplicit false
set_option autoImplicit false

namespace Electrokinetics

variable {K : Type} [Scalar K] {domain : Domain}

/-- The parameters of the transport kernels: diffusion coefficient, valency, time step, seed and the
extents of the domain. -/
def transportParameters (d z : K) (timeStep seed : Nat) (domain : Domain) : List (String × K) :=
  [(Parameter.diffusion.name, d), (Parameter.valency.name, z),
      (Parameter.timeStep.name, Scalar.ofInt timeStep), (Parameter.seed.name, Scalar.ofInt seed)] ++
    Axis.all.map fun axis => ((Parameter.extent axis).name, Scalar.ofInt (domain.extent.get axis))

/-- The parameters of the transport kernels, bound. -/
def transportBindings (d z : K) (timeStep seed : Nat) (domain : Domain) : Bindings K :=
  .ofList (transportParameters d z timeStep seed domain)

namespace Store

/-- Sets a component to random values between `lo` and `hi` that depend on the cell, the component
and the seed.  The channel is the component, counted around the number of channels. -/
def fillRandom (s : Store K domain) (field : String) (component seed : Nat) (lo hi : K) :
    Store K domain :=
  s.fillWith field component fun cell =>
    Scalar.add lo
      (Scalar.mul (Scalar.sub hi lo) (unitDraw cell (component % channelCount) 0 seed))

/-- Sets the first component to `base + slope · cell`. -/
def fillLinear (s : Store K domain) (field : String) (base : K) (slope : PerAxis K) :
    Store K domain :=
  s.fillWith field 0 fun cell =>
    Axis.all.foldl
      (fun value axis =>
        Scalar.add value (Scalar.mul (slope.get axis) (Scalar.ofInt (cell.get axis))))
      base

/-- Sets the first three components to the components of a velocity. -/
def fillVelocity (s : Store K domain) (field : String) (velocity : PerAxis K) : Store K domain :=
  Axis.all.foldl (fun s axis => s.fill field axis.index (velocity.get axis)) s

/-- Sets the first components of a field to zero. -/
def fillZero (s : Store K domain) (field : String) (components : Nat) : Store K domain :=
  (List.range components).foldl (fun s k => s.fill field k Scalar.zero) s

end Store

/-- The domain on which kernels are timed. -/
def referenceDomain : Except GridError Domain := Domain.cubic 16

end Electrokinetics
