/-
**How deep the ghost layers of a catalog have to be.**

A kernel asks for a sweep over the interior and some ghost layers, and a field comes with ghost layers
of its own.  The kernels that look at neighbours ask for one ghost layer and look one cell further, so
they need fields with two.  A configuration is accepted from one ghost layer on, and with exactly one
these kernels leave the memory of the fields that they read: at the outer side of the ghost layer the
flux looks for a concentration, and the update of the concentration for a flux, that no cell holds.

Main definitions:

* `Domain.Within` — the cells at most some number of layers outside the interior;
* `Kernel.StaysInside` — a sweep stays inside the ghost layers of its fields.

Main results:

* `Region.contains_iff_within` — the cells of a region are those within its ghost layers;
* `Kernel.Footprint.staysInside`, `Kernel.Footprint.not_staysInside` — when the ghost layers of the
  fields are enough, and when they are not;
* `Config.staysInside_iff` — which kernels stay inside;
* `Config.reference_not_staysInside` — with the default configuration the flux kernel does not.
-/

import Electrokinetics.Proofs.Catalog.Footprint
import Electrokinetics.Scalar.Double

set_option relaxedAutoImplicit false
set_option autoImplicit false

namespace Electrokinetics

open Electrokinetics.Expr

variable {K : Type}

/-! ### Cells around the interior -/

/-- A cell is at most some number of layers outside the interior of a domain. -/
def Domain.Within (d : Domain) (layers : ℕ) (x : Cell) : Prop :=
  ∀ axis, -(layers : ℤ) ≤ x.get axis ∧ x.get axis < d.extent.get axis + layers

theorem Region.contains_iff_within {r : Region} {x : Cell} :
    r.contains x ↔ r.domain.Within r.ghostLayers x := by
  rw [contains_iff]
  refine forall_congr' fun axis => ?_
  rw [shape, Domain.grownShape, PerAxis.get_map]
  push_cast
  omega

theorem Domain.Within.add {d : Domain} {layers reach : ℕ} {x : Cell} {n : Offset}
    (hx : d.Within layers x) (hn : n.Within reach) : d.Within (layers + reach) (x + n) := by
  intro axis
  have hcell := hx axis
  have hoffset := hn axis
  rw [PerAxis.get_add]
  push_cast
  omega

theorem Domain.Within.mono {d : Domain} {layers layers' : ℕ} {x : Cell} (hx : d.Within layers x)
    (h : layers ≤ layers') : d.Within layers' x := by
  intro axis
  have hcell := hx axis
  omega

/-- At every cell of the region that its sweep asks for, a kernel reads and writes where the ghost
layers of the accessed field reach. -/
def Kernel.StaysInside (kernel : Kernel K) (domain : Domain) : Prop :=
  ∀ x, domain.Within kernel.info.ghostLayersToInclude x →
    ∀ a, a ∈ kernel.collection.reads ∨ a ∈ kernel.collection.targets →
      ∀ f ∈ kernel.fields, f.name = a.field → domain.Within f.ghostLayers (x + a.offset)

/-! ### Kernels that stay inside and kernels that do not -/

namespace Kernel

variable {kernel : Kernel K} {domain : Domain}

/-- Twice the ghost layers of the sweep are enough: one time for the sweep and one for the reads. -/
theorem Footprint.staysInside (h : kernel.Footprint)
    (hfields : ∀ f ∈ kernel.fields, 2 * kernel.info.ghostLayersToInclude ≤ f.ghostLayers) :
    kernel.StaysInside domain := by
  intro x hx a ha f hf _
  have hoffset : a.offset.Within kernel.info.ghostLayersToInclude := by
    rcases ha with hread | htarget
    · exact (h.mem_reads hread).2
    · rw [(h.targets a htarget).2]
      exact Offset.within_zero _
  have hdepth := hfields f hf
  exact (hx.add hoffset).mono (by omega)

/-- A kernel that reads off the current cell, from the ghost layer that it is swept over. -/
theorem Footprint.not_staysInside (h : kernel.Footprint) {a : Access} (ha : a ∈ kernel.collection.reads)
    {axis : Axis} (hoffset : a.offset.get axis ≠ 0) (hsweep : kernel.info.ghostLayersToInclude = 1)
    (hfields : ∀ f ∈ kernel.fields, f.ghostLayers = 1) : ¬ kernel.StaysInside domain := by
  intro hinside
  obtain ⟨f, hf, hname, -⟩ := (h.mem_reads ha).1
  -- The cell in the ghost layer on the side that the offset points to.
  let x : Cell := PerAxis.ofFn fun other =>
    if other = axis then (if a.offset.get axis < 0 then -1 else domain.extent.get axis) else 0
  have hx : domain.Within kernel.info.ghostLayersToInclude x := by
    intro other
    have hpos := domain.pos other
    rw [hsweep, PerAxis.get_ofFn]
    split
    · rename_i heq
      subst heq
      split <;> omega
    · omega
  have hread := hinside x hx a (Or.inl ha) f hf hname axis
  have hcell : x.get axis = if a.offset.get axis < 0 then -1 else (domain.extent.get axis : ℤ) := by
    rw [PerAxis.get_ofFn, if_pos rfl]
  rw [hfields f hf, PerAxis.get_add, hcell] at hread
  split at hread <;> omega

end Kernel

/-! ### The kernels of a catalog -/

namespace Config

/-! The accesses of a kernel depend on the stencil alone, so for each stencil they are computed. -/

theorem mem_accesses_fluxValue (c : Config) :
    ⟨"c", 0, ⟨-1, 0, 0⟩⟩ ∈ (c.fluxValue ⟨-1, 0, 0⟩ : Expr Float).accesses := by
  change _ ∈ (reference.fluxValue ⟨-1, 0, 0⟩ : Expr Float).accesses
  decide +kernel

theorem mem_accesses_noisyValue (c : Config) :
    ⟨"c", 0, ⟨-1, 0, 0⟩⟩ ∈ (c.noisyValue ⟨-1, 0, 0⟩ 0 : Expr Float).accesses := by
  have hstencil : ∀ s : Stencil, ⟨"c", 0, ⟨-1, 0, 0⟩⟩ ∈
      (({ stencil := s } : Config).noisyValue ⟨-1, 0, 0⟩ 0 : Expr Float).accesses := by
    intro s
    cases s <;> decide +kernel
  exact hstencil c.stencil

theorem mem_reads_continuity (c : Config) :
    ⟨"j", 0, ⟨1, 0, 0⟩⟩ ∈ (c.continuity (K := Float)).reads := by
  have hstencil : ∀ s : Stencil, ⟨"j", 0, ⟨1, 0, 0⟩⟩ ∈
      (({ stencil := s } : Config).continuity (K := Float)).reads := by
    intro s
    cases s <;> decide +kernel
  exact hstencil c.stencil

theorem first_mem_staggered (s : Stencil) :
    ∃ direction, (direction, 0) ∈ s.staggered.zipIdx ∧ direction.offset = ⟨-1, 0, 0⟩ := by
  cases s <;> exact ⟨_, List.mem_cons_self, rfl⟩

variable {c : Config}

/-- A kernel of a catalog that is swept over a ghost layer looks off the current cell. -/
theorem exists_read_of_swept {kernel : Kernel Float} (h : kernel ∈ c.catalog)
    (hsweep : kernel.info.ghostLayersToInclude ≠ 0) :
    kernel.info.ghostLayersToInclude = 1 ∧
      ∃ a ∈ kernel.collection.reads, ∃ axis, a.offset.get axis ≠ 0 := by
  obtain ⟨direction, hmem, hoffset⟩ := first_mem_staggered c.stencil
  rcases mem_catalog.1 h with (h | h) | ⟨species, -, rfl⟩
  · simp only [fluxEntries, List.mem_cons, List.not_mem_nil, or_false] at h
    rcases h with rfl | rfl
    · refine ⟨rfl, ⟨"c", 0, ⟨-1, 0, 0⟩⟩, Collection.mem_reads_of_main (List.mem_map_of_mem hmem) ?_, .x, ?_⟩
      · change _ ∈ (c.fluxValue direction.offset : Expr Float).accesses
        rw [hoffset]
        exact c.mem_accesses_fluxValue
      · decide
    · have hmain := List.mem_map_of_mem (f := fun p : Direction × ℕ =>
        (⟨c.fields.flux.location p.2 0, c.noisyValue p.1.offset p.2⟩ : Assignment Float)) hmem
      rw [← main_noisyTransport, hoffset] at hmain
      exact ⟨rfl, ⟨"c", 0, ⟨-1, 0, 0⟩⟩, Collection.mem_reads_of_main hmain c.mem_accesses_noisyValue, .x,
        by decide⟩
  · simp only [cellEntries, List.mem_cons, List.not_mem_nil, or_false] at h
    rcases h with rfl | rfl | rfl
    · exact ⟨rfl, ⟨"j", 0, ⟨1, 0, 0⟩⟩, c.mem_reads_continuity, .x, by decide⟩
    · exact absurd rfl hsweep
    · exact absurd rfl hsweep
  · exact absurd rfl hsweep

/-- The kernels that are swept over the interior stay inside with any accepted configuration, and all
others exactly if the fields have two ghost layers, one more than a configuration needs to be
accepted. -/
theorem staysInside_iff (h : c.validate = .ok ()) :
    ∃ set : KernelSet Float, c.kernelSet = .ok set ∧ ∀ kernel ∈ set.kernels, ∀ domain,
      kernel.StaysInside domain ↔
        kernel.info.ghostLayersToInclude = 0 ∨ 2 ≤ c.ghostLayers := by
  obtain ⟨set, hset, hkernels⟩ := exists_kernelSet (K := Float) h
  have hlayers := (c.validate_eq_ok_iff.1 h).1
  refine ⟨set, hset, fun kernel hkernel domain => ?_⟩
  rw [hkernels] at hkernel
  have hfootprint := footprint_of_mem_catalog hkernel
  have hfields := ghostLayers_of_mem_catalog hkernel
  by_cases hsweep : kernel.info.ghostLayersToInclude = 0
  · refine iff_of_true (hfootprint.staysInside fun f _ => ?_) (Or.inl hsweep)
    omega
  · obtain ⟨hone, a, ha, axis, hoffset⟩ := exists_read_of_swept hkernel hsweep
    rw [or_iff_right hsweep]
    constructor
    · intro hinside
      by_contra hfew
      refine hfootprint.not_staysInside ha hoffset hone (fun f hf => ?_) hinside
      rw [hfields f hf]
      omega
    · intro hdepth
      refine hfootprint.staysInside fun f hf => ?_
      rw [hfields f hf]
      omega

/-- The kernels of the default configuration with two ghost layers instead of one. -/
theorem staysInside_two_layers :
    ∃ set : KernelSet Float, ({ ghostLayers := 2 } : Config).kernelSet = .ok set ∧
      ∀ kernel ∈ set.kernels, kernel.StaysInside .narrow := by
  obtain ⟨set, hset, hiff⟩ := staysInside_iff (c := { ghostLayers := 2 }) rfl
  exact ⟨set, hset, fun kernel hkernel => (hiff kernel hkernel .narrow).2 (Or.inr le_rfl)⟩

/-- With the default configuration the flux looks outside the ghost layer of the concentration, for
one at the cell below the ghost layer. -/
theorem reference_not_staysInside :
    reference.validate = .ok () ∧ ∃ (set : KernelSet Float) (kernel : Kernel Float),
      reference.kernelSet = .ok set ∧ set.get? "AdvectionDiffusion" = some kernel ∧
        ¬ kernel.StaysInside .narrow := by
  obtain ⟨set, hset, hkernels⟩ := exists_kernelSet (K := Float) (c := reference) rfl
  let kernel : Kernel Float :=
    ⟨fluxKernelName, reference.transport, ⟨1, true, false⟩, reference.transportFields⟩
  have hkernel : kernel ∈ reference.catalog :=
    mem_catalog.2 (Or.inl (Or.inl List.mem_cons_self))
  obtain ⟨hone, a, ha, axis, hoffset⟩ := exists_read_of_swept hkernel Nat.one_ne_zero
  refine ⟨rfl, set, kernel, hset, get?_kernelSet hset hkernel, ?_⟩
  exact (footprint_of_mem_catalog hkernel).not_staysInside ha hoffset hone
    (ghostLayers_of_mem_catalog hkernel)

end Config

end Electrokinetics
