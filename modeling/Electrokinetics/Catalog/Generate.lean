/-
The catalog of kernels of an electrokinetic simulation.

A time step needs the flux of the concentration, with and without noise, its divergence, the charge
density and the chemical reactions.  The catalog holds one kernel for each, and one reaction kernel
for each number of species that the configuration asks for.

Main definitions:

* `Config.kernelSet` — the catalog of a configuration, with `GenerationError`;
* `generationLog` — the records that its generation leaves.
-/

import Electrokinetics.Catalog.Fields
import Electrokinetics.Catalog.Kernel
import Electrokinetics.Noise.Fluctuation
import Electrokinetics.Noise.Folding
import Electrokinetics.Parameter
import Electrokinetics.Transport.AdvectionDiffusion
import Electrokinetics.Transport.Reaction

set_option relaxedAutoImplicit false
set_option autoImplicit false

namespace Electrokinetics

/-- Why a catalog cannot be generated. -/
inductive GenerationError where
  /-- The configuration is refused. -/
  | config (cause : ConfigError)
  /-- A kernel cannot be built. -/
  | build (kernel : String) (cause : BuildError)
  deriving DecidableEq, Repr

namespace GenerationError

/-- The text of the cause of an error. -/
def causeMessage : GenerationError → String
  | config cause => cause.message
  | build _ cause => cause.message

/-- The text of an error. -/
def message : GenerationError → String
  | config cause => "config: " ++ cause.message
  | build kernel cause => "kernel '" ++ kernel ++ "': " ++ cause.message

end GenerationError

variable {K : Type} [Scalar K]

/-- Names the kernel that cannot be built. -/
def forKernel {α : Type} (name : String) : Except BuildError α → Except GenerationError α
  | .ok a => .ok a
  | .error cause => .error (.build name cause)

/-! ### The kernels -/

/-- The name of the kernel for the flux without noise. -/
def fluxKernelName : String := "AdvectionDiffusion"

/-- The name of the kernel for the flux with noise. -/
def noisyFluxKernelName : String := "AdvectionDiffusionFluctuation"

/-- The name of the kernel for the update of the concentration. -/
def continuityKernelName : String := "ContinuityEquation"

/-- The name of the reaction kernel for some number of species. -/
def reactionKernelName (species : Nat) : String := "ReactionFluxSpecies" ++ toString species

/-- The flux of the concentration. -/
def fluxOf (f : KernelFields) : Except BuildError (Collection K) :=
  transportFlux f.concentration f.velocity f.potential f.flux Parameter.diffusion.expr
    Parameter.valency.expr

/-- A flux with noise, whose random keys are folded. -/
def noisyFluxOf (f : KernelFields) (stencil : Stencil) (flux : Collection K) :
    Except BuildError (Collection K) := do
  let noisy ←
    addNoise flux f.concentration f.flux Parameter.diffusion.expr stencil.noiseFactor
  return foldRandomKeys noisy extentParameters

/-- The kernels for the flux without and with noise. -/
def fluxKernels (c : Config) : Except GenerationError (List (Kernel K)) := do
  let f := c.fields
  let fields := [f.concentration, f.velocity, f.potential, f.flux]
  let flux ← forKernel fluxKernelName (fluxOf f)
  let noisy ← forKernel noisyFluxKernelName (noisyFluxOf f c.stencil flux)
  return [⟨fluxKernelName, flux, ⟨1, true, false⟩, fields⟩,
    ⟨noisyFluxKernelName, noisy, ⟨1, true, true⟩, fields⟩]

/-- The kernels that update one cell at a time: concentration, charge and reaction. -/
def cellKernels (c : Config) : Except GenerationError (List (Kernel K)) := do
  let f := c.fields
  let continuity ← forKernel continuityKernelName
    (concentrationUpdate f.concentration f.potential f.flux Parameter.diffusion.expr
      Parameter.valency.expr)
  return [⟨continuityKernelName, continuity, ⟨1, false, false⟩, [f.concentration, f.flux]⟩,
    ⟨"GatherCharges", chargeUpdate f.charge f.concentration Parameter.valency.expr, {},
      [f.charge, f.concentration]⟩,
    ⟨"ReactionContinuity", reactionUpdate f.concentration f.reactionFlux, {},
      [f.concentration, f.reactionFlux]⟩]

/-- The reaction kernel for some number of species. -/
def reactionKernel (c : Config) (species : Nat) : Except GenerationError (Kernel K) := do
  let fields := c.speciesFields species
  let concentrations := fields.map SpeciesFields.concentration
  let fluxes := fields.map SpeciesFields.reactionFlux
  let reaction ← forKernel (reactionKernelName species)
    (massAction concentrations fluxes Parameter.rate.expr (reactionCoefficients species)
      (reactionOrders species))
  return ⟨reactionKernelName species, reaction, {}, concentrations ++ fluxes⟩

/-- The catalog of a configuration.  The first kernel that cannot be built ends the generation. -/
def Config.kernelSet (c : Config) : Except GenerationError (KernelSet K) := do
  match c.validate with
  | .error cause => .error (.config cause)
  | .ok () =>
    let fluxes ← fluxKernels c
    let cells ← cellKernels c
    let reactions ← c.speciesCounts.mapM (reactionKernel c)
    return .ofList (fluxes ++ cells ++ reactions)

/-! ### The log -/

/-- The record that is left when a catalog is complete. -/
def summaryRecord {K : Type} (c : Config) (s : KernelSet K) : Log.Record :=
  ⟨.info, "generated " ++ toString s.kernels.length ++ " kernels for " ++ c.stencil.text ++ " (" ++
    c.element.text ++ " " ++ c.layout.text ++ ", " ++ toString c.ghostLayers ++
    " ghost layer(s))"⟩

/-- The records that the generation of a catalog leaves: the construction of the flux, then every
kernel in order, then the summary. -/
def generationLog {K : Type} (c : Config) (s : KernelSet K) : List Log.Record :=
  transportRecord c.fields.concentration c.stencil.staggered.length ::
    s.kernels.map Kernel.record ++ [summaryRecord c s]

end Electrokinetics
