/-
**The kernels of a catalog.**

For every configuration that is accepted all kernels can be built: the flux field has faces, the
velocity has three components, the targets of a reaction have names of their own, and so have the
kernels, so that none takes the place of another.

Main definitions:

* `Config.transport`, `Config.noisyTransport`, `Config.continuity`, `Config.reaction` — what the
  kernels compute;
* `Config.fluxEntries`, `Config.cellEntries`, `Config.reactionEntry` — the kernels.

Main results:

* `KernelSet.ofList_kernels` — kernels with distinct names are all kept;
* `Config.fluxKernels_eq`, `Config.cellKernels_eq`, `Config.reactionKernel_eq` — the builders.
-/

import Electrokinetics.Catalog.Generate
import Electrokinetics.Proofs.Expr.Keeps
import Electrokinetics.Proofs.Transport.Faces
import Mathlib.Data.List.Nodup

set_option relaxedAutoImplicit false
set_option autoImplicit false

namespace Electrokinetics

variable {K : Type}

/-! ### Sets of kernels with distinct names -/

namespace KernelSet

theorem insertKernel_eq_append {kernel : Kernel K} {kernels : List (Kernel K)}
    (h : kernel.name ∉ kernels.map Kernel.name) :
    insertKernel kernel kernels = kernels ++ [kernel] := by
  induction kernels with
  | nil => rfl
  | cons k rest ih =>
      rw [List.map_cons, List.mem_cons, not_or] at h
      rw [insertKernel, if_neg fun heq => h.1 heq.symm, ih h.2, List.cons_append]

theorem foldl_insert_kernels {s : KernelSet K} {kernels : List (Kernel K)}
    (h : ((s.kernels ++ kernels).map Kernel.name).Nodup) :
    (kernels.foldl insert s).kernels = s.kernels ++ kernels := by
  induction kernels generalizing s with
  | nil => rw [List.foldl_nil, List.append_nil]
  | cons k rest ih =>
      have hk : k.name ∉ s.kernels.map Kernel.name := by
        rw [List.map_append, List.map_cons] at h
        intro hmem
        exact (List.nodup_append.1 h).2.2 _ hmem _ List.mem_cons_self rfl
      have hinsert : (s.insert k).kernels = s.kernels ++ [k] := insertKernel_eq_append hk
      have happend : (s.insert k).kernels ++ rest = s.kernels ++ k :: rest := by
        rw [hinsert, List.append_assoc, List.singleton_append]
      rw [List.foldl_cons, ih (happend ▸ h), happend]

theorem ofList_kernels {kernels : List (Kernel K)} (h : (kernels.map Kernel.name).Nodup) :
    (ofList kernels).kernels = kernels := foldl_insert_kernels (s := empty) h

theorem get?_of_mem {s : KernelSet K} {kernel : Kernel K} (h : kernel ∈ s.kernels) :
    s.get? kernel.name = some kernel := by
  have hnodup := s.nodup_names
  unfold get?
  generalize s.kernels = kernels at h hnodup
  induction kernels with
  | nil => cases h
  | cons k rest ih =>
      rw [List.map_cons, List.nodup_cons] at hnodup
      -- No kernel before the one looked for has its name.
      rcases List.mem_cons.1 h with rfl | hmem
      · rw [List.find?_cons_of_pos (by simp)]
      · have hne : k.name ≠ kernel.name := fun heq =>
          hnodup.1 (heq ▸ List.mem_map_of_mem hmem)
        rw [List.find?_cons_of_neg (by simpa using hne), ih hmem hnodup.2]

end KernelSet

/-! ### What the kernels compute -/

/-- The name of the field of a species. -/
def speciesName (base : String) (number : ℕ) : String := base ++ "_" ++ toString number

theorem speciesName_injective {base : String} {i k : ℕ} (h : speciesName base i = speciesName base k) :
    i = k :=
  Nat.repr_injective ((String.append_right_inj (base ++ "_")).1 h)

namespace Config

variable [Scalar K] (c : Config)

/-- The flux without noise. -/
def transport : Collection K :=
  .ofFaces c.fields.flux c.stencil fun _ direction =>
    transportValue c.fields.concentration c.fields.velocity c.fields.potential
      Parameter.diffusion.expr Parameter.valency.expr direction.offset

/-- The flux with noise, before its keys are folded. -/
def unfoldedTransport : Collection K :=
  noisyFaces c.fields.concentration c.fields.flux c.stencil Parameter.diffusion.expr
    c.stencil.noiseFactor fun _ direction =>
      transportValue c.fields.concentration c.fields.velocity c.fields.potential
        Parameter.diffusion.expr Parameter.valency.expr direction.offset

/-- The flux with noise. -/
def noisyTransport : Collection K := foldRandomKeys c.unfoldedTransport extentParameters

/-- The update of the concentration. -/
def continuity : Collection K :=
  .single ⟨c.fields.concentration.centerAccess, c.fields.concentration.center +
    .add (FiniteVolume.faceBalance c.fields.flux c.stencil) *
      .num (Scalar.div Scalar.one c.stencil.faceArea)⟩

/-- The assignments of the reaction between some number of species. -/
def reactionMain (species : ℕ) : List (Assignment K) :=
  let fields := c.speciesFields species
  List.zipWith
    (fun (r : Field) coefficient => ⟨r.centerAccess,
      reactionSpeed (fields.map SpeciesFields.concentration) Parameter.rate.expr
        (reactionOrders species) * coefficient⟩)
    (fields.map SpeciesFields.reactionFlux) (reactionCoefficients species)

theorem length_speciesFields (species : ℕ) : (c.speciesFields species).length = species := by
  rw [speciesFields, List.length_map, List.length_range]

theorem reactionMain_eq (species : ℕ) :
    c.reactionMain (K := K) species = (List.range species).map fun i =>
      ⟨⟨speciesName reactionFluxName (i + 1), 0, 0⟩,
        reactionSpeed ((c.speciesFields species).map SpeciesFields.concentration)
          Parameter.rate.expr (reactionOrders species) * .real ("n_" ++ toString i)⟩ := by
  have hfluxes : (c.speciesFields species).map SpeciesFields.reactionFlux =
      (List.range species).map fun i =>
        { (c.fields.species (i + 1)).reactionFlux with ghostLayers := c.ghostLayers } := by
    rw [speciesFields, List.map_map]
    rfl
  simp only [reactionMain]
  rw [hfluxes, reactionCoefficients, List.zipWith_map, List.zipWith_self]
  rfl

theorem targets_reactionMain (species : ℕ) :
    (c.reactionMain (K := K) species).map Assignment.target =
      (List.range species).map fun i => ⟨speciesName reactionFluxName (i + 1), 0, 0⟩ := by
  rw [reactionMain_eq, List.map_map]
  rfl

/-- The reaction between some number of species. -/
def reaction (species : ℕ) : Collection K where
  main := c.reactionMain species
  subexpressions := []
  nodup_targets := by
    rw [targets_reactionMain]
    refine List.Pairwise.map _ (fun i k hik h => hik ?_) List.nodup_range
    exact Nat.succ.inj (speciesName_injective (congrArg Access.field h))
  nodup_names := List.nodup_nil

/-! ### The builders -/

/-- The fields of the kernels for the flux. -/
def transportFields : List Field :=
  [c.fields.concentration, c.fields.velocity, c.fields.potential, c.fields.flux]

/-- The kernel for the flux with noise. -/
def noisyTransportEntry : Kernel K :=
  ⟨noisyFluxKernelName, c.noisyTransport, ⟨1, true, true⟩, c.transportFields⟩

/-- The kernels for the flux. -/
def fluxEntries : List (Kernel K) :=
  [⟨fluxKernelName, c.transport, ⟨1, true, false⟩, c.transportFields⟩, c.noisyTransportEntry]

/-- The kernel that adds the flux of a reaction to the concentration. -/
def reactionUpdateEntry : Kernel K :=
  ⟨"ReactionContinuity", reactionUpdate c.fields.concentration c.fields.reactionFlux, {},
    [c.fields.concentration, c.fields.reactionFlux]⟩

/-- The kernels that update one cell at a time. -/
def cellEntries : List (Kernel K) :=
  let f := c.fields
  [⟨continuityKernelName, c.continuity, ⟨1, false, false⟩, [f.concentration, f.flux]⟩,
    ⟨"GatherCharges", chargeUpdate f.charge f.concentration Parameter.valency.expr, {},
      [f.charge, f.concentration]⟩,
    c.reactionUpdateEntry]

/-- The kernel of the reaction between some number of species. -/
def reactionEntry (species : ℕ) : Kernel K :=
  ⟨reactionKernelName species, c.reaction species, {},
    (c.speciesFields species).map SpeciesFields.concentration ++
      (c.speciesFields species).map SpeciesFields.reactionFlux⟩

theorem fluxKernels_eq : fluxKernels (K := K) c = .ok c.fluxEntries := by
  have hj : c.fields.flux.kind = .flux c.stencil := rfl
  have hv : Axis.z.index < c.fields.velocity.components := by
    change 2 < 3
    decide
  have hflux : fluxOf (K := K) c.fields = .ok c.transport := transportFlux_eq hj hv
  have hnoisy : noisyFluxOf (K := K) c.fields c.stencil c.transport = .ok c.noisyTransport := by
    rw [noisyFluxOf, transport, addNoise_ofFaces c.fields.concentration hj]
    rfl
  -- Naming the kernel in an error changes nothing where there is no error.
  rw [fluxKernels, hflux]
  simp only [forKernel]
  change (forKernel _ (noisyFluxOf c.fields c.stencil c.transport) >>= _) = _
  rw [hnoisy]
  rfl

theorem cellKernels_eq : cellKernels (K := K) c = .ok c.cellEntries := by
  have hj : c.fields.flux.kind = .flux c.stencil := rfl
  rw [cellKernels, concentrationUpdate, FiniteVolume.update_eq _ hj]
  rfl

theorem massAction_eq {species : ℕ} (h : 0 < species) :
    massAction (K := K) ((c.speciesFields species).map SpeciesFields.concentration)
      ((c.speciesFields species).map SpeciesFields.reactionFlux) Parameter.rate.expr
      (reactionCoefficients species) (reactionOrders species) = .ok (c.reaction species) := by
  have hconcentrations :
      ((c.speciesFields species).map SpeciesFields.concentration).length = species := by
    rw [List.length_map, length_speciesFields]
  have hfluxes : ((c.speciesFields species).map SpeciesFields.reactionFlux).length = species := by
    rw [List.length_map, length_speciesFields]
  have hcoefficients : (reactionCoefficients (K := K) species).length = species := by
    rw [reactionCoefficients, List.length_map, List.length_range]
  have horders : (reactionOrders (K := K) species).length = species := by
    rw [reactionOrders, List.length_map, List.length_range]
  simp only [massAction]
  rw [hconcentrations, hfluxes, hcoefficients, horders, if_neg (Nat.ne_of_gt h), if_neg (by simp)]
  -- The counts agree, so what is left of the checks is that no target occurs twice.
  exact (Collection.ofMain_eq_ok_iff _ _).2 ⟨rfl, rfl⟩

theorem reactionKernel_eq {species : ℕ} (h : 0 < species) :
    reactionKernel (K := K) c species = .ok (c.reactionEntry species) := by
  simp only [reactionKernel]
  rw [c.massAction_eq h]
  rfl

end Config

end Electrokinetics
