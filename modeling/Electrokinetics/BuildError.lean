/-
Why a kernel cannot be built.

Main definitions:

* `BuildError` — the causes;
* `BuildError.message` — their texts.
-/

set_option relaxedAutoImplicit false
set_option autoImplicit false

namespace Electrokinetics

/-- Why a kernel cannot be built.  Targets are kept as they are printed. -/
inductive BuildError where
  /-- Two fluxes to be combined write different targets in some direction. -/
  | fluxTargetMismatch (direction : Nat) (advective diffusive : String)
  /-- Two fluxes to be combined have different numbers of assignments. -/
  | fluxCountMismatch (advective diffusive : Nat)
  /-- A flux does not have one assignment for each staggered direction of its field. -/
  | directionCountMismatch (field : String) (directions assignments : Nat)
  /-- A flux does not write the face of some direction. -/
  | faceTargetMismatch (direction : Nat) (expected found : String)
  /-- A field that should be a staggered flux is none. -/
  | notStaggered (field : String)
  /-- A field has too few components. -/
  | componentOutOfRange (field : String) (component components : Nat)
  /-- The lists that describe a reaction have different lengths. -/
  | speciesMismatch (species fluxFields coefficients orders : Nat)
  /-- A reaction has no species. -/
  | noSpecies
  /-- Two assignments write the same target. -/
  | duplicateTarget (target : String)
  /-- Two subexpressions have the same name. -/
  | duplicateSymbol (name : String)
  /-- No stencil has the given number of neighbours. -/
  | unsupportedStencil (arity : Nat)
  deriving DecidableEq, Repr

/-- The text of an error. -/
def BuildError.message : BuildError → String
  | .fluxTargetMismatch direction advective diffusive =>
    "flux target mismatch in direction " ++ toString direction ++ ": advective writes " ++
      advective ++ ", diffusive writes " ++ diffusive
  | .fluxCountMismatch advective diffusive =>
    "flux count mismatch: " ++ toString advective ++ " advective vs " ++ toString diffusive ++
      " diffusive assignments"
  | .directionCountMismatch field directions assignments =>
    "flux field '" ++ field ++ "' has " ++ toString directions ++
      " staggered directions but the collection has " ++ toString assignments ++ " assignments"
  | .faceTargetMismatch direction expected found =>
    "flux for direction " ++ toString direction ++ " writes " ++ found ++ " instead of " ++ expected
  | .notStaggered field => "field '" ++ field ++ "' is not a staggered flux field"
  | .componentOutOfRange field component components =>
    "component " ++ toString component ++ " out of range for field '" ++ field ++ "' with " ++
      toString components ++ " components"
  | .speciesMismatch species fluxFields coefficients orders =>
    "species mismatch: " ++ toString species ++ " species, " ++ toString fluxFields ++
      " flux fields, " ++ toString coefficients ++ " coefficients, " ++ toString orders ++ " orders"
  | .noSpecies => "reaction needs at least one species"
  | .duplicateTarget target => "target " ++ target ++ " assigned more than once"
  | .duplicateSymbol name => "subexpression '" ++ name ++ "' defined more than once"
  | .unsupportedStencil arity =>
    "no stencil with " ++ toString arity ++ " neighbours (expected 6, 18 or 26)"

end Electrokinetics
