/-
The combined flux by diffusion, migration and advection.

Main definitions:

* `addFluxes` — the sum of two fluxes, face by face;
* `transportFlux` — the flux of a charged species in a potential and a velocity field;
* `transportRecord` — the log record that its construction leaves.
-/

import Electrokinetics.Log
import Electrokinetics.Transport.VolumeOfFluid

set_option relaxedAutoImplicit false
set_option autoImplicit false

namespace Electrokinetics

variable {K : Type} [Scalar K]

/-- The first position at which two lists of assignments write different targets. -/
def firstMisaligned? {K : Type} :
    Nat → List (Assignment K) → List (Assignment K) → Option (Nat × Access × Access)
  | position, a :: as, b :: bs =>
    if a.target = b.target then firstMisaligned? (position + 1) as bs
    else some (position, a.target, b.target)
  | _, _, _ => none

/-- The assignments of a flux with the values of another one added. -/
def addValues (as bs : List (Assignment K)) : List (Assignment K) :=
  List.zipWith (fun a b => ⟨a.target, a.value + b.value⟩) as bs

theorem map_target_addValues {as bs : List (Assignment K)} (h : as.length = bs.length) :
    (addValues as bs).map Assignment.target = as.map Assignment.target := by
  induction as generalizing bs with
  | nil => simp [addValues]
  | cons a as ih =>
      cases bs with
      | nil => simp at h
      | cons b bs => simpa [addValues] using ih (Nat.succ.inj h)

/-- The sum of two fluxes.  They must have equally many assignments and write the same targets in
the same order; the subexpressions of the first come before those of the second. -/
def addFluxes (advective diffusive : Collection K) : Except BuildError (Collection K) :=
  if h : advective.main.length = diffusive.main.length then
    match firstMisaligned? 0 advective.main diffusive.main with
    | some (direction, a, b) => .error (.fluxTargetMismatch direction a.text b.text)
    | none =>
      let sum : Collection K :=
        { main := addValues advective.main diffusive.main
          subexpressions := []
          nodup_targets := by rw [map_target_addValues h]; exact advective.nodup_targets
          nodup_names := List.nodup_nil }
      sum.withSubexpressions (advective.subexpressions ++ diffusive.subexpressions)
  else .error (.fluxCountMismatch advective.main.length diffusive.main.length)

/-- The flux of `c` through each staggered face of `j`: diffusion with coefficient `d`, migration
with valency `z` in the potential `pot`, and advection with the velocity `v`. -/
def transportFlux (c v pot j : Field) (d z : Expr K) : Except BuildError (Collection K) := do
  let diffusive ←
    FiniteVolume.faceFlux ⟨c, diffusionFlux c.center pot.center d z⟩ j
  let advective ← advectiveFlux j v c
  addFluxes advective diffusive

/-- The record that is left when the flux of a field has been built. -/
def transportRecord (c : Field) (directions : Nat) : Log.Record :=
  ⟨.debug, "advection-diffusion flux of '" ++ c.name ++ "': " ++ toString directions ++
    " staggered directions"⟩

end Electrokinetics
