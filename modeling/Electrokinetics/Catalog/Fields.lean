/-
The fields of an electrokinetic simulation.

Main definitions:

* `KernelFields` — the fields that the kernels of a catalog share;
* `SpeciesFields`, `KernelFields.species` — the fields of one species of a reaction;
* `Config.fields` — the fields as a configuration declares them.
-/

import Electrokinetics.Catalog.Config

set_option relaxedAutoImplicit false
set_option autoImplicit false

namespace Electrokinetics

/-- The fields that the kernels of a catalog share. -/
structure KernelFields where
  concentration : Field
  potential : Field
  flux : Field
  charge : Field
  velocity : Field
  reactionFlux : Field
  deriving DecidableEq, Repr

/-- The fields of one species of a reaction. -/
structure SpeciesFields where
  concentration : Field
  reactionFlux : Field
  deriving DecidableEq, Repr

/-- The name of the concentration. -/
def concentrationName : String := "c"

/-- The name of the reaction flux. -/
def reactionFluxName : String := "r"

namespace KernelFields

/-- Declares all fields with some number of ghost layers. -/
def declare (stencil : Stencil) (element : ElementType) (layout : Layout) (ghostLayers : Nat) :
    KernelFields where
  concentration := ⟨concentrationName, .scalar, element, layout, ghostLayers⟩
  potential := ⟨"Phi", .scalar, element, layout, ghostLayers⟩
  flux := ⟨"j", .flux stencil, element, layout, ghostLayers⟩
  charge := ⟨"q", .scalar, element, layout, ghostLayers⟩
  velocity := ⟨"v", .vector 3, element, layout, ghostLayers⟩
  reactionFlux := ⟨reactionFluxName, .scalar, element, layout, ghostLayers⟩

/-- The fields with the default storage. -/
def default : KernelFields := declare .d3q19 .float32 .fzyx 1

/-- The fields in the order in which they are listed. -/
def toList (f : KernelFields) : List Field :=
  [f.concentration, f.potential, f.flux, f.charge, f.velocity, f.reactionFlux]

/-- The fields of the species with a given number, stored like the concentration but with one ghost
layer. -/
def species (f : KernelFields) (number : Nat) : SpeciesFields :=
  let like (name : String) : Field :=
    ⟨name ++ "_" ++ toString number, .scalar, f.concentration.element, f.concentration.layout, 1⟩
  ⟨like concentrationName, like reactionFluxName⟩

end KernelFields

/-- The fields as a configuration declares them. -/
def Config.fields (c : Config) : KernelFields :=
  .declare c.stencil c.element c.layout c.ghostLayers

/-- The fields of some number of species, as a configuration declares them. -/
def Config.speciesFields (c : Config) (species : Nat) : List SpeciesFields :=
  (List.range species).map fun i =>
    let f := c.fields.species (i + 1)
    ⟨{ f.concentration with ghostLayers := c.ghostLayers },
      { f.reactionFlux with ghostLayers := c.ghostLayers }⟩

end Electrokinetics
