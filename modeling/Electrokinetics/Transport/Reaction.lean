/-
Updates that need no neighbours: charges and chemical reactions.

A reaction runs at a rate times the product of its species' concentrations, each to the power of its
order; every species gains by its stoichiometric coefficient.

Main definitions:

* `chargeUpdate` — the charge density gains what a species carries;
* `massAction` — the reaction fluxes of some species;
* `reactionUpdate` — a concentration gains its reaction flux.
-/

import Electrokinetics.Assignment
import Electrokinetics.Field

set_option relaxedAutoImplicit false
set_option autoImplicit false

namespace Electrokinetics

variable {K : Type} [Scalar K]

/-- Adds the charge of a species with valency `z` to the charge density `q`. -/
def chargeUpdate (q c : Field) (z : Expr K) : Collection K :=
  .single ⟨q.centerAccess, q.center + z * c.center⟩

/-- Adds the reaction flux `r` to the concentration `c`. -/
def reactionUpdate (c r : Field) : Collection K :=
  .single ⟨c.centerAccess, c.center + r.center⟩

/-- The speed of a reaction: its rate times the concentrations to the power of their orders. -/
def reactionSpeed (concentrations : List Field) (rate : Expr K) (orders : List (Expr K)) : Expr K :=
  .mul (rate ::
    List.zipWith (fun (c : Field) order => Expr.pow c.center order) concentrations orders)

/-- The reaction flux of every species: the speed of the reaction times the coefficient of the
species. -/
def massAction (concentrations fluxes : List Field) (rate : Expr K)
    (coefficients orders : List (Expr K)) : Except BuildError (Collection K) :=
  let species := concentrations.length
  if species = 0 then .error .noSpecies
  else if fluxes.length ≠ species ∨ coefficients.length ≠ species ∨ orders.length ≠ species then
    .error (.speciesMismatch species fluxes.length coefficients.length orders.length)
  else
    let speed := reactionSpeed concentrations rate orders
    Collection.ofMain (List.zipWith
      (fun (r : Field) coefficient => ⟨r.centerAccess, speed * coefficient⟩)
      fluxes coefficients)

/-- The parameters for the coefficients of some number of species. -/
def reactionCoefficients {K : Type} (species : Nat) : List (Expr K) :=
  (List.range species).map fun i => .real ("n_" ++ toString i)

/-- The parameters for the orders of some number of species. -/
def reactionOrders {K : Type} (species : Nat) : List (Expr K) :=
  (List.range species).map fun i => .real ("O_" ++ toString i)

end Electrokinetics
