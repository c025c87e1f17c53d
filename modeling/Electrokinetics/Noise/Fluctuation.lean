/-
Thermal fluctuations of a flux.

Every face receives an independent random flux of mean zero.  Its variance follows from the local
density and the diffusion coefficient, from the length of the direction, and from one factor for the
whole stencil that makes the variance injected per cell independent of the connectivity.

Main definitions:

* `noiseAmplitude` — the standard deviation of the random flux through a face;
* `addNoise` — a flux with noise on every face;
* `noiseFactorOfArity`, `arityWarning?` — the factor by number of neighbours, and the warning for a
  number that no stencil has.
-/

import Electrokinetics.Assignment
import Electrokinetics.Field
import Electrokinetics.Log
import Electrokinetics.Parameter

set_option relaxedAutoImplicit false
set_option autoImplicit false

namespace Electrokinetics

variable {K : Type} [Scalar K]

/-! ### The factor of a stencil -/

/-- The stencil whose factor is used where no stencil has the given number of neighbours. -/
def fallbackStencil : Stencil := .d3q19

/-- The noise factor of the stencil with a given number of neighbours. -/
def noiseFactorOfArity (arity : Nat) : K :=
  match Stencil.ofArity arity with
  | .ok stencil => stencil.noiseFactor
  | .error _ => fallbackStencil.noiseFactor

/-- The warning for a number of neighbours that no stencil has. -/
def arityWarning? (arity : Nat) : Option Log.Record :=
  match Stencil.ofArity arity with
  | .ok _ => none
  | .error e =>
    some ⟨.warning, e.message ++ "; using the " ++ fallbackStencil.text ++ " noise normalisation"⟩

/-! ### Amplitude -/

/-- The factor by which the noise is damped near empty cells: the smaller the two concentrations,
below one each, the less noise. -/
def densityDamping (c : Field) (n : Offset) : Expr K :=
  .max (.min (c.neighbor n) .one * .min c.center .one) .zero

/-- The damped density on the face towards `n`. -/
def faceDensity (c : Field) (n : Offset) : Expr K :=
  (c.neighbor n + c.center) * .num Scalar.half * densityDamping c n

/-- The length factor of a direction: the fourth root of the inverse number of its axes. -/
def lengthFactor (n : Offset) : K :=
  Scalar.sqrt (Scalar.div Scalar.one (Scalar.sqrtNat n.nonzeroAxes.length))

/-- The amplitude of the noise on the face towards `n`: the square root of twice the density times
the diffusion coefficient, scaled by the length factor and by `factor`.  A negative product counts
as zero. -/
def noiseAmplitude (c : Field) (n : Offset) (d : Expr K) (factor : K) : Expr K :=
  .sqrt (.max (.num Scalar.two * faceDensity c n * d) .zero) *
    .num (Scalar.mul (lengthFactor n) factor)

/-! ### Noise on a flux -/

/-- The name of the random number of a direction. -/
def noiseName (direction : Nat) : String := "xi_" ++ toString direction

/-- The subexpression that draws the random number of a direction. -/
def noiseDraw {K : Type} (direction : Nat) : Subexpression K :=
  ⟨⟨noiseName direction, .real⟩,
    .random (.atCell direction Parameter.timeStep.expr Parameter.seed.expr)⟩

/-- The random number of a direction, rescaled to mean zero and variance one. -/
def rescaledNoise (direction : Nat) : Expr K :=
  (.real (noiseName direction) - .num Scalar.half) *
    .num (Scalar.mul Scalar.two (Scalar.sqrtNat 3))

/-- Checks that each assignment writes the face of its direction, and refuses the first that does
not. -/
def checkFaces {K : Type} (j : Field) : Nat → List (Assignment K) → Except BuildError Unit
  | _, [] => .ok ()
  | k, a :: as => do
    let face ← j.face k 0
    if a.target = face then checkFaces j (k + 1) as
    else .error (.faceTargetMismatch k face.text a.target.text)

/-- Adds to the value of each assignment the noise of its direction. -/
def noisyValues (c : Field) (d : Expr K) (factor : K) (directions : List Direction)
    (main : List (Assignment K)) : List (Assignment K) :=
  List.zipWith
    (fun (a : Assignment K) (p : Direction × Nat) =>
      ⟨a.target, a.value + noiseAmplitude c p.1.offset d factor * rescaledNoise p.2⟩)
    main directions.zipIdx

theorem map_target_noisyValues (c : Field) (d : Expr K) (factor : K) {directions : List Direction}
    {main : List (Assignment K)} (h : main.length = directions.length) :
    (noisyValues c d factor directions main).map Assignment.target =
      main.map Assignment.target := by
  unfold noisyValues
  generalize hp : directions.zipIdx = pairs
  have hlen : main.length = pairs.length := by rw [h, ← hp, List.length_zipIdx]
  clear hp h
  induction main generalizing pairs with
  | nil => simp
  | cons a as ih =>
      cases pairs with
      | nil => simp at hlen
      | cons p ps => simpa using ih ps (Nat.succ.inj hlen)

/-- The flux with noise on every face of `j`.  Assignment `k` must write the face of direction `k`;
its random number is drawn in channel `k`. -/
def addNoise (flux : Collection K) (c j : Field) (d : Expr K) (factor : K) :
    Except BuildError (Collection K) := do
  let stencil ← j.stencil
  let directions := stencil.staggered
  if h : flux.main.length = directions.length then
    checkFaces j 0 flux.main
    let noisy : Collection K :=
      { main := noisyValues c d factor directions flux.main
        subexpressions := []
        nodup_targets := by rw [map_target_noisyValues c d factor h]; exact flux.nodup_targets
        nodup_names := List.nodup_nil }
    noisy.withSubexpressions (flux.subexpressions ++ (List.range directions.length).map noiseDraw)
  else .error (.directionCountMismatch j.name directions.length flux.main.length)

end Electrokinetics
