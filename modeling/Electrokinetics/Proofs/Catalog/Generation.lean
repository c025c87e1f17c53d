/-
**Generating a catalog.**

Generation fails for the configurations that are refused and for no other one.  What it gives is
known in advance: five kernels and one reaction for each species count, under names of their own, in
that order.  How fields are stored is not visible in what the kernels compute.

Main definitions:

* `Config.catalog` — the kernels of a configuration;
* `catalogNames` — their names.

Main results:

* `Config.exists_kernelSet` — an accepted configuration has its catalog;
* `Config.catalog_collections_congr` — what the kernels compute depends on the stencil and the
  species counts;
* `Config.exists_kernelSet_iff`, `Config.kernelSet_ne_build` — when there is a catalog;
* `Config.kernelSet_total` — when a catalog is generated, and what is in it.
-/

import Electrokinetics.Proofs.Catalog.Kernels

set_option relaxedAutoImplicit false
set_option autoImplicit false

namespace Electrokinetics

variable {K : Type}

/-! ### Names -/

/-- The names of the kernels besides the reactions. -/
def fixedNames : List String :=
  ["AdvectionDiffusion", "AdvectionDiffusionFluctuation", "ContinuityEquation", "GatherCharges",
    "ReactionContinuity"]

/-- The names of the kernels of a catalog with some species counts. -/
def catalogNames (speciesCounts : List ℕ) : List String :=
  fixedNames ++ speciesCounts.map fun species => "ReactionFluxSpecies" ++ toString species

theorem reactionName_notMem_fixedNames (s : String) : "ReactionFluxSpecies" ++ s ∉ fixedNames := by
  -- The first nine characters tell the reactions from all other kernels.
  have hprefix : ("ReactionFluxSpecies" ++ s).toList.take 9 = "ReactionF".toList := by
    rw [String.toList_append]
    rfl
  have hfixed : ∀ name ∈ fixedNames, name.toList.take 9 ≠ "ReactionF".toList := by decide
  exact fun hmem => hfixed _ hmem hprefix

theorem nodup_catalogNames {speciesCounts : List ℕ} (h : speciesCounts.Nodup) :
    (catalogNames speciesCounts).Nodup := by
  refine List.nodup_append.2 ⟨by decide, ?_, ?_⟩
  · refine List.Pairwise.map _ (fun i k hik hname => hik ?_) h
    exact Nat.repr_injective ((String.append_right_inj "ReactionFluxSpecies").1 hname)
  · intro name hname other hother heq
    obtain ⟨species, -, rfl⟩ := List.mem_map.1 hother
    exact reactionName_notMem_fixedNames _ (heq ▸ hname)

/-! ### The catalog -/

namespace Config

variable [Scalar K] (c : Config)

/-- The kernels of a configuration. -/
def catalog : List (Kernel K) :=
  c.fluxEntries ++ c.cellEntries ++ c.speciesCounts.map c.reactionEntry

theorem names_catalog :
    (c.catalog (K := K)).map Kernel.name = catalogNames c.speciesCounts := by
  rw [catalog, List.map_append, List.map_map]
  rfl

variable {c}

theorem mem_catalog {kernel : Kernel K} :
    kernel ∈ c.catalog ↔ (kernel ∈ c.fluxEntries ∨ kernel ∈ c.cellEntries) ∨
      ∃ species ∈ c.speciesCounts, c.reactionEntry species = kernel := by
  rw [catalog, List.mem_append, List.mem_append, List.mem_map]

theorem noisyTransportEntry_mem_catalog : c.noisyTransportEntry (K := K) ∈ c.catalog :=
  mem_catalog.2 (Or.inl (Or.inl (List.mem_cons_of_mem _ List.mem_cons_self)))

theorem pos_of_mem_speciesCounts (h : c.validate = .ok ()) {species : ℕ}
    (hmem : species ∈ c.speciesCounts) : 0 < species := by
  have hvalid := c.validate_eq_ok_iff.1 h
  obtain ⟨i, -, rfl⟩ := List.mem_range'.1 hmem
  omega

/-- An accepted configuration has its catalog, in which no kernel is missing. -/
theorem exists_kernelSet (h : c.validate = .ok ()) :
    ∃ set : KernelSet K, c.kernelSet = .ok set ∧ set.kernels = c.catalog := by
  have hnodup : ((c.catalog (K := K)).map Kernel.name).Nodup := by
    rw [names_catalog]
    exact nodup_catalogNames List.nodup_range'
  -- Species counts start at one, so no reaction is without species.
  have hreactions : c.speciesCounts.mapM (reactionKernel (K := K) c) =
      .ok (c.speciesCounts.map c.reactionEntry) :=
    mapM_eq_ok fun species hmem => c.reactionKernel_eq (pos_of_mem_speciesCounts h hmem)
  refine ⟨.ofList c.catalog, ?_, KernelSet.ofList_kernels hnodup⟩
  rw [kernelSet, h]
  simp only
  rw [c.fluxKernels_eq, c.cellKernels_eq, hreactions]
  rfl

theorem kernels_eq_catalog {set : KernelSet K} (h : c.kernelSet = .ok set) :
    c.validate = .ok () ∧ set.kernels = c.catalog := by
  cases hvalidate : c.validate with
  | error cause =>
      rw [kernelSet, hvalidate] at h
      cases h
  | ok _ =>
      obtain ⟨set', hset', hkernels⟩ := exists_kernelSet (K := K) hvalidate
      obtain rfl := Except.ok.inj (h.symm.trans hset')
      exact ⟨rfl, hkernels⟩

/-! ### What the kernels do not depend on -/

variable {c' : Config}

theorem reactionSpeed_congr (c c' : Config) (species : ℕ) (rate : Expr K) (orders : List (Expr K)) :
    reactionSpeed ((c.speciesFields species).map SpeciesFields.concentration) rate orders =
      reactionSpeed ((c'.speciesFields species).map SpeciesFields.concentration) rate orders := by
  have hcenters (c : Config) :
      reactionSpeed ((c.speciesFields species).map SpeciesFields.concentration) rate orders =
        .mul (rate :: List.zipWith Expr.pow ((List.range species).map fun i =>
          .access ⟨speciesName concentrationName (i + 1), 0, 0⟩) orders) := by
    rw [reactionSpeed, speciesFields, List.map_map, List.zipWith_map_left, List.zipWith_map_left]
    rfl
  rw [hcenters c, hcenters c']

theorem reaction_congr (species : ℕ) :
    c.reaction (K := K) species = c'.reaction species := by
  refine Collection.ext_lists ?_ rfl
  change c.reactionMain species = c'.reactionMain species
  rw [reactionMain_eq, reactionMain_eq, reactionSpeed_congr c c']

/-- What the kernels compute depends on the stencil and the species counts alone. -/
theorem catalog_collections_congr (hstencil : c.stencil = c'.stencil)
    (hcounts : c.speciesCounts = c'.speciesCounts) :
    (c.catalog (K := K)).map Kernel.collection = c'.catalog.map Kernel.collection := by
  have hfixed :
      (c.fluxEntries (K := K)).map Kernel.collection ++ c.cellEntries.map Kernel.collection =
        c'.fluxEntries.map Kernel.collection ++ c'.cellEntries.map Kernel.collection := by
    -- Element, layout and depth are kept in the fields, and values name fields only.
    obtain ⟨stencil, element, layout, ghostLayers, first, last, hints⟩ := c
    obtain ⟨stencil', element', layout', ghostLayers', first', last', hints'⟩ := c'
    obtain rfl : stencil = stencil' := hstencil
    rfl
  have hreactions : (c.speciesCounts.map (c.reactionEntry (K := K))).map Kernel.collection =
      (c'.speciesCounts.map c'.reactionEntry).map Kernel.collection := by
    rw [List.map_map, List.map_map, hcounts]
    exact List.map_congr_left fun species _ => reaction_congr species
  simp only [catalog, List.map_append]
  rw [hfixed, hreactions]

/-! ### What is in a catalog -/

theorem mem_speciesCounts {species : ℕ} :
    species ∈ c.speciesCounts ↔ c.firstSpecies ≤ species ∧ species ≤ c.lastSpecies := by
  rw [speciesCounts, List.mem_range'_1]
  omega

theorem targets_transport :
    (c.transport (K := K)).targets =
      (List.range c.stencil.staggered.length).map fun k => ⟨"j", k, 0⟩ :=
  Collection.targets_ofFaces

theorem targets_noisyTransport :
    (c.noisyTransport (K := K)).targets =
      (List.range c.stencil.staggered.length).map fun k => ⟨"j", k, 0⟩ := by
  rw [noisyTransport, foldRandomKeys, Collection.mapKeys, Collection.targets_mapValues]
  exact targets_noisyFaces c.fields.concentration _ _

theorem targets_reaction (species : ℕ) :
    (c.reaction (K := K) species).targets =
      (List.range species).map fun i => ⟨"r_" ++ toString (i + 1), 0, 0⟩ := by
  have hname (i : ℕ) : speciesName reactionFluxName (i + 1) = "r_" ++ toString (i + 1) := by
    have hbase : reactionFluxName ++ "_" = "r_" := by decide
    rw [speciesName, hbase]
  refine (c.targets_reactionMain species).trans ?_
  simp only [hname]

/-! ### When a catalog is generated -/

theorem exists_kernelSet_iff :
    (∃ set : KernelSet K, c.kernelSet = .ok set) ↔ c.validate = .ok () := by
  constructor
  · rintro ⟨set, hset⟩
    exact (kernels_eq_catalog hset).1
  · intro h
    obtain ⟨set, hset, -⟩ := exists_kernelSet (K := K) h
    exact ⟨set, hset⟩

/-- Every kernel of a configuration that is accepted can be built. -/
theorem kernelSet_ne_build (name : String) (cause : BuildError) :
    c.kernelSet (K := K) ≠ .error (.build name cause) := by
  intro h
  cases hvalidate : c.validate with
  | error refused =>
      rw [kernelSet, hvalidate] at h
      cases h
  | ok _ =>
      obtain ⟨set, hset, -⟩ := exists_kernelSet (K := K) hvalidate
      rw [hset] at h
      cases h

section Contents

variable {set : KernelSet K} (hset : c.kernelSet = .ok set)

include hset

theorem names_kernelSet : set.names = catalogNames c.speciesCounts := by
  rw [KernelSet.names, (kernels_eq_catalog hset).2, names_catalog]

theorem get?_kernelSet {kernel : Kernel K} (h : kernel ∈ c.catalog) :
    set.get? kernel.name = some kernel := by
  rw [← (kernels_eq_catalog hset).2] at h
  exact KernelSet.get?_of_mem h

/-- The builders give the kernels of a catalog, and none is lost or replaced. -/
theorem kernelSet_eq_append :
    ∃ fluxes cells reactions, fluxKernels c = .ok fluxes ∧ cellKernels c = .ok cells ∧
      c.speciesCounts.mapM (reactionKernel c) = .ok reactions ∧
      set.kernels = fluxes ++ cells ++ reactions := by
  obtain ⟨hvalid, hkernels⟩ := kernels_eq_catalog hset
  refine ⟨_, _, _, c.fluxKernels_eq, c.cellKernels_eq, mapM_eq_ok fun _ hmem => ?_, hkernels⟩
  exact c.reactionKernel_eq (pos_of_mem_speciesCounts hvalid hmem)

theorem exists_flux_kernel {name : String}
    (h : name ∈ ["AdvectionDiffusion", "AdvectionDiffusionFluctuation"]) :
    ∃ kernel, set.get? name = some kernel ∧ kernel.collection.targets =
      (List.range c.stencil.staggered.length).map fun k => ⟨"j", k, 0⟩ := by
  have hget {kernel : Kernel K} (hmem : kernel ∈ c.fluxEntries) :
      set.get? kernel.name = some kernel :=
    get?_kernelSet hset (mem_catalog.2 (Or.inl (Or.inl hmem)))
  rcases List.mem_cons.1 h with rfl | h
  · exact ⟨_, hget List.mem_cons_self, targets_transport⟩
  · obtain rfl := List.mem_singleton.1 h
    exact ⟨_, hget (List.mem_cons_of_mem _ List.mem_cons_self), targets_noisyTransport⟩

theorem exists_reaction_kernel {species : ℕ} (h : species ∈ c.speciesCounts) :
    ∃ kernel, set.get? ("ReactionFluxSpecies" ++ toString species) = some kernel ∧
      kernel.collection.targets =
        (List.range species).map fun i => ⟨"r_" ++ toString (i + 1), 0, 0⟩ := by
  have hentry : c.reactionEntry (K := K) species ∈ c.catalog :=
    mem_catalog.2 (Or.inr ⟨species, h, rfl⟩)
  exact ⟨_, get?_kernelSet hset hentry, targets_reaction species⟩

theorem kernelSet_collections_congr {set' : KernelSet K} (hset' : c'.kernelSet = .ok set')
    (hstencil : c'.stencil = c.stencil) (hcounts : c'.speciesCounts = c.speciesCounts) :
    set'.kernels.map Kernel.collection = set.kernels.map Kernel.collection := by
  rw [(kernels_eq_catalog hset').2, (kernels_eq_catalog hset).2]
  exact catalog_collections_congr hstencil hcounts

end Contents

/-- A catalog is generated for the configurations that are accepted, and no kernel of one fails to be
built.  It holds its kernels in order and under names of their own.  Both flux kernels write every
staggered face once, in order, a reaction writes the flux of every species, and the collections are
the same for all configurations with one stencil and the same species counts. -/
theorem kernelSet_total (c : Config) :
    ((∃ set : KernelSet K, c.kernelSet = .ok set) ↔ c.validate = .ok ()) ∧
    (∀ name cause, c.kernelSet (K := K) ≠ .error (.build name cause)) ∧
    (c.speciesCounts.Pairwise (· < ·) ∧
      ∀ species, species ∈ c.speciesCounts ↔
        c.firstSpecies ≤ species ∧ species ≤ c.lastSpecies) ∧
    ∀ set : KernelSet K, c.kernelSet = .ok set →
      set.names = ["AdvectionDiffusion", "AdvectionDiffusionFluctuation", "ContinuityEquation",
          "GatherCharges", "ReactionContinuity"] ++
        c.speciesCounts.map (fun species => "ReactionFluxSpecies" ++ toString species) ∧
      (∃ fluxes cells reactions, fluxKernels c = .ok fluxes ∧ cellKernels c = .ok cells ∧
        c.speciesCounts.mapM (reactionKernel c) = .ok reactions ∧
        set.kernels = fluxes ++ cells ++ reactions) ∧
      (∀ name ∈ ["AdvectionDiffusion", "AdvectionDiffusionFluctuation"],
        ∃ kernel, set.get? name = some kernel ∧ kernel.collection.targets =
          (List.range c.stencil.staggered.length).map fun k => ⟨"j", k, 0⟩) ∧
      (∀ species ∈ c.speciesCounts,
        ∃ kernel, set.get? ("ReactionFluxSpecies" ++ toString species) = some kernel ∧
          kernel.collection.targets =
            (List.range species).map fun i => ⟨"r_" ++ toString (i + 1), 0, 0⟩) ∧
      ∀ (c' : Config) (set' : KernelSet K), c'.kernelSet = .ok set' → c'.stencil = c.stencil →
        c'.speciesCounts = c.speciesCounts →
          set'.kernels.map Kernel.collection = set.kernels.map Kernel.collection := by
  refine ⟨exists_kernelSet_iff, kernelSet_ne_build,
    ⟨List.pairwise_lt_range', fun _ => mem_speciesCounts⟩, fun set hset => ?_⟩
  refine ⟨names_kernelSet hset, kernelSet_eq_append hset, ?_, ?_, ?_⟩
  · intro name hname
    exact exists_flux_kernel hset hname
  · intro species hspecies
    exact exists_reaction_kernel hset hspecies
  · intro c' set' hset' hstencil hcounts
    exact kernelSet_collections_congr hset hset' hstencil hcounts

end Config

end Electrokinetics
