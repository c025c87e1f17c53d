/-
**What the kernels of a catalog touch.**

A kernel lists the fields that it reads or writes.  Every kernel keeps to its list: its values look up
parameters and components that the listed fields have, at most one cell away and only if its sweep
visits a ghost layer, and it writes such components at the current cell.  Random numbers are drawn in
subexpressions alone, one for each staggered direction, and their keys are folded.

Main definitions:

* `Access.DeclaredIn`, `Offset.Within` — a declared component, and a bound on how far an offset goes;
* `Kernel.Footprint` — a kernel keeps to its list of fields;
* `Config.fluxValue`, `Config.noiseValue`, `Config.noisyValue` — a flux, its noise and their sum.

Main results:

* `Config.reading_fluxValue`, `Config.reading_noisyValue` — what a flux looks at, without noise and
  with it;
* `Config.footprint_of_mem_catalog` — every kernel of a catalog keeps to its list.
-/

import Electrokinetics.Proofs.Catalog.Generation
import Electrokinetics.Proofs.Expr.Reading
import Electrokinetics.Proofs.Noise.Draws
import Electrokinetics.Proofs.Transport.Nodes

set_option relaxedAutoImplicit false
set_option autoImplicit false

namespace Electrokinetics

open Electrokinetics.Expr

variable {K : Type}

/-! ### Reads and writes -/

/-- A field of a list has the component that an access names. -/
def Access.DeclaredIn (a : Access) (fields : List Field) : Prop :=
  ∃ f ∈ fields, f.name = a.field ∧ a.component < f.components

/-- An offset goes at most some number of cells along every axis. -/
def Offset.Within (reach : ℕ) (n : Offset) : Prop := ∀ axis, (n.get axis).natAbs ≤ reach

theorem Offset.within_zero (reach : ℕ) : Offset.Within reach 0 := fun axis => by simp

theorem Field.declaredIn_location {fields : List Field} {f : Field} (h : f ∈ fields) {k : ℕ}
    (hk : k < f.components) (n : Offset) : (f.location k n).DeclaredIn fields := ⟨f, h, rfl, hk⟩

theorem Field.reading_center {S : Symbol → Prop} {fields : List Field} {f : Field} (hf : f ∈ fields)
    (hkind : f.kind = .scalar) (reach : ℕ) :
    Reading (fun r => r.DeclaredIn fields ∧ r.offset.Within reach) S (f.center : Expr K) := by
  have hk : 0 < f.components := by
    rw [Field.components, hkind]
    exact Nat.one_pos
  exact ⟨Field.declaredIn_location hf hk 0, Offset.within_zero reach⟩

theorem Stencil.within_of_mem_staggered {s : Stencil} {direction : Direction}
    (h : direction ∈ s.staggered) : direction.offset.Within 1 := by
  have hall : ∀ direction ∈ s.staggered, ∀ axis ∈ Axis.all,
      (direction.offset.get axis).natAbs ≤ 1 := by
    cases s <;> decide
  exact fun axis => hall direction h axis (Axis.mem_all axis)

/-- A kernel keeps to its list of fields, and its values to the reach of its sweep. -/
structure Kernel.Footprint (kernel : Kernel K) : Prop where
  targets : ∀ t ∈ kernel.collection.targets, t.DeclaredIn kernel.fields ∧ t.offset = 0
  main : ∀ a ∈ kernel.collection.main, a.value.All (Reading
    (fun r => r.DeclaredIn kernel.fields ∧ r.offset.Within kernel.info.ghostLayersToInclude)
    fun _ => True)
  subexpressions : ∃ n, kernel.collection.subexpressions = (List.range n).map foldedNoise

namespace Kernel.Footprint

variable {kernel : Kernel K}

/-- Draws read parameters and coordinates, so all reads are those of the main values. -/
theorem mem_reads (h : kernel.Footprint) {r : Access} (hr : r ∈ kernel.collection.reads) :
    r.DeclaredIn kernel.fields ∧ r.offset.Within kernel.info.ghostLayersToInclude := by
  obtain ⟨e, he, hr⟩ := Collection.mem_reads.1 hr
  rcases List.mem_append.1 he with he | he
  · obtain ⟨n, hn⟩ := h.subexpressions
    rw [hn, List.map_map] at he
    obtain ⟨k, -, rfl⟩ := List.mem_map.1 he
    have hnone : (foldedDraw k : Expr K).accesses = [] := rfl
    change r ∈ (foldedDraw k : Expr K).accesses at hr
    rw [hnone] at hr
    cases hr
  · obtain ⟨a, ha, rfl⟩ := List.mem_map.1 he
    exact (h.main a ha).of_mem_accesses hr

/-- A kernel of one assignment that reads at the current cell. -/
theorem of_single {a : Assignment K} {name : String} {info : KernelMeta} {fields : List Field}
    (htarget : a.target.DeclaredIn fields) (hoffset : a.target.offset = 0)
    (hvalue : a.value.All (Reading
      (fun r => r.DeclaredIn fields ∧ r.offset.Within info.ghostLayersToInclude) fun _ => True)) :
    (⟨name, .single a, info, fields⟩ : Kernel K).Footprint where
  targets t ht := by
    obtain rfl := List.mem_singleton.1 ht
    exact ⟨htarget, hoffset⟩
  main b hb := by
    obtain rfl := List.mem_singleton.1 hb
    exact hvalue
  subexpressions := ⟨0, rfl⟩

end Kernel.Footprint

variable [Scalar K] {A : Access → Prop} {S : Symbol → Prop}

/-- An expression without draws is not changed where keys are. -/
theorem Expr.All.mapKeys {e : Expr K} (h : e.All (Reading A S))
    (f : RandomKey (Expr K) → RandomKey (Expr K)) : (e.mapKeys f).All (Reading A S) := by
  refine All.transform combines_reading (h.mono fun t ht => ?_)
  cases t with
  | random key => exact absurd ht id
  | deriv arg axis => exact absurd ht id
  | _ => exact ht

/-! ### The kernels -/

namespace Config

variable (c : Config)

/-- The flux towards `n`. -/
def fluxValue (n : Offset) : Expr K :=
  transportValue c.fields.concentration c.fields.velocity c.fields.potential
    Parameter.diffusion.expr Parameter.valency.expr n

/-- The noise of the flux in a direction. -/
def noiseValue (n : Offset) (k : ℕ) : Expr K :=
  noiseAmplitude c.fields.concentration n Parameter.diffusion.expr c.stencil.noiseFactor *
    rescaledNoise k

/-- The flux with noise in a direction, as the kernel has it after its keys are folded. -/
def noisyValue (n : Offset) (k : ℕ) : Expr K :=
  Expr.mapKeys (fun key => key.mapCounters fun _ counter => foldCounters extentParameters counter)
    (c.fluxValue n + c.noiseValue n k)

theorem main_noisyTransport :
    (c.noisyTransport (K := K)).main = c.stencil.staggered.zipIdx.map fun p =>
      ⟨c.fields.flux.location p.2 0, c.noisyValue p.1.offset p.2⟩ := by
  change (c.stencil.staggered.zipIdx.map _).map _ = _
  rw [List.map_map]
  rfl

/-- Folding the keys of a draw at the current cell gives the draw at the folded cell. -/
theorem subexpressions_noisyTransport :
    (c.noisyTransport (K := K)).subexpressions =
      (List.range c.stencil.staggered.length).map foldedNoise := by
  change ((List.range c.stencil.staggered.length).map noiseDraw).map _ = _
  rw [List.map_map]
  rfl

section Fluxes

variable {c} {direction : Direction}

/-- The flux looks at the two cells of a face and at two parameters. -/
theorem reading_fluxValue (h : direction ∈ c.stencil.staggered)
    (hd : S Parameter.diffusion.symbol) (hz : S Parameter.valency.symbol) :
    (c.fluxValue direction.offset : Expr K).All
      (Reading (fun r => r.DeclaredIn c.transportFields ∧ r.offset.Within 1) S) := by
  have hn := Stencil.within_of_mem_staggered h
  have hread {f : Field} (hf : f ∈ c.transportFields) {k : ℕ} (hk : k < f.components) {m : Offset}
      (hm : m.Within 1) :
      (f.location k m).DeclaredIn c.transportFields ∧ (f.location k m).offset.Within 1 :=
    ⟨Field.declaredIn_location hf hk m, hm⟩
  have hconcentration : c.fields.concentration ∈ c.transportFields := by simp [transportFields]
  have hvelocity : c.fields.velocity ∈ c.transportFields := by simp [transportFields]
  have hpotential : c.fields.potential ∈ c.transportFields := by simp [transportFields]
  have hone {f : Field} (hf : f.kind = .scalar) : 0 < f.components := by
    rw [Field.components, hf]
    exact Nat.one_pos
  have hthree (axis : Axis) : axis.index < c.fields.velocity.components := by
    change axis.index < 3
    cases axis <;> decide
  refine all_transportValue combines_reading ?_ ?_ ?_ ?_ (fun axis => ⟨?_, ?_⟩) ?_ ?_
  · exact hread hconcentration (hone rfl) (Offset.within_zero 1)
  · exact hread hconcentration (hone rfl) hn
  · exact hread hpotential (hone rfl) (Offset.within_zero 1)
  · exact hread hpotential (hone rfl) hn
  · exact hread hvelocity (hthree axis) (Offset.within_zero 1)
  · exact hread hvelocity (hthree axis) hn
  · exact all_symbol.2 hd
  · exact all_symbol.2 hz

/-- The noise of a flux looks at the two concentrations, the diffusion coefficient and its random
number. -/
theorem reading_noiseValue (h : direction ∈ c.stencil.staggered)
    (hd : S Parameter.diffusion.symbol) {k : ℕ} (hnoise : S ⟨noiseName k, .real⟩) :
    (c.noiseValue direction.offset k : Expr K).All
      (Reading (fun r => r.DeclaredIn c.transportFields ∧ r.offset.Within 1) S) := by
  have hconcentration : c.fields.concentration ∈ c.transportFields := by simp [transportFields]
  have hread {m : Offset} (hm : m.Within 1) :
      (c.fields.concentration.location 0 m).DeclaredIn c.transportFields ∧ m.Within 1 :=
    ⟨Field.declaredIn_location hconcentration Nat.one_pos m, hm⟩
  refine All.mul_pair combines_reading (all_noiseAmplitude combines_reading ?_ ?_ ?_ _) ?_
  · exact hread (Offset.within_zero 1)
  · exact hread (Stencil.within_of_mem_staggered h)
  · exact all_symbol.2 hd
  · exact all_rescaledNoise combines_reading hnoise

/-- There are no keys in the main values of the kernel with noise, so nothing in them is folded. -/
theorem reading_noisyValue (h : direction ∈ c.stencil.staggered)
    (hd : S Parameter.diffusion.symbol) (hz : S Parameter.valency.symbol) {k : ℕ}
    (hnoise : S ⟨noiseName k, .real⟩) :
    (c.noisyValue direction.offset k : Expr K).All
      (Reading (fun r => r.DeclaredIn c.transportFields ∧ r.offset.Within 1) S) :=
  All.mapKeys (All.add_pair combines_reading (reading_fluxValue h hd hz)
    (reading_noiseValue h hd hnoise)) _

end Fluxes

theorem declaredIn_faces {fields : List Field} (h : c.fields.flux ∈ fields) {t : Access}
    (ht : t ∈ (List.range c.stencil.staggered.length).map fun k => (⟨"j", k, 0⟩ : Access)) :
    t.DeclaredIn fields ∧ t.offset = 0 := by
  obtain ⟨k, hk, rfl⟩ := List.mem_map.1 ht
  exact ⟨⟨c.fields.flux, h, rfl, List.mem_range.1 hk⟩, rfl⟩

theorem footprint_transport :
    (⟨fluxKernelName, c.transport, ⟨1, true, false⟩, c.transportFields⟩ : Kernel K).Footprint where
  targets t ht := by
    change t ∈ (c.transport (K := K)).targets at ht
    rw [targets_transport] at ht
    exact c.declaredIn_faces (by simp [transportFields]) ht
  main a ha := by
    obtain ⟨p, hp, rfl⟩ := List.mem_map.1 ha
    exact reading_fluxValue (List.fst_mem_of_mem_zipIdx hp) trivial trivial
  subexpressions := ⟨0, rfl⟩

theorem footprint_noisyTransport : (c.noisyTransportEntry (K := K)).Footprint where
  targets t ht := by
    change t ∈ (c.noisyTransport (K := K)).targets at ht
    rw [targets_noisyTransport] at ht
    have hflux : c.fields.flux ∈ c.transportFields := by simp [transportFields]
    exact c.declaredIn_faces hflux ht
  main a ha := by
    change a ∈ (c.noisyTransport (K := K)).main at ha
    rw [main_noisyTransport] at ha
    obtain ⟨p, hp, rfl⟩ := List.mem_map.1 ha
    exact reading_noisyValue (List.fst_mem_of_mem_zipIdx hp) trivial trivial trivial
  subexpressions := ⟨_, c.subexpressions_noisyTransport⟩

theorem footprint_continuity :
    (⟨continuityKernelName, c.continuity, ⟨1, false, false⟩,
      [c.fields.concentration, c.fields.flux]⟩ : Kernel K).Footprint := by
  have hconcentration : c.fields.concentration ∈ [c.fields.concentration, c.fields.flux] := by simp
  have hflux : c.fields.flux ∈ [c.fields.concentration, c.fields.flux] := by simp
  refine .of_single (Field.declaredIn_location hconcentration Nat.one_pos 0) rfl ?_
  refine All.add_pair combines_reading (all_access.2 ?_) (All.mul_num combines_reading
    (All.add combines_reading (all_faceBalance combines_reading fun p hp => ?_)) _)
  · exact ⟨Field.declaredIn_location hconcentration Nat.one_pos 0, Offset.within_zero 1⟩
  · have hk : p.2 < c.fields.flux.components := by
      have hlt := List.snd_lt_of_mem_zipIdx hp
      change p.2 < c.stencil.staggered.length
      omega
    have hback : (-p.1.offset).Within 1 := fun axis => by
      have hn := Stencil.within_of_mem_staggered (List.fst_mem_of_mem_zipIdx hp) axis
      rwa [PerAxis.get_neg, Int.natAbs_neg]
    exact ⟨⟨Field.declaredIn_location hflux hk _, hback⟩,
      Field.declaredIn_location hflux hk 0, Offset.within_zero 1⟩

theorem footprint_chargeUpdate {name : String} :
    (⟨name, chargeUpdate c.fields.charge c.fields.concentration Parameter.valency.expr, {},
      [c.fields.charge, c.fields.concentration]⟩ : Kernel K).Footprint := by
  have hcharge : c.fields.charge ∈ [c.fields.charge, c.fields.concentration] := by simp
  refine .of_single (Field.declaredIn_location hcharge Nat.one_pos 0) rfl ?_
  refine All.add_pair combines_reading (all_access.2 (Field.reading_center hcharge rfl 0))
    (All.mul_pair combines_reading (all_symbol.2 trivial) (all_access.2 (Field.reading_center ?_ rfl 0)))
  simp

theorem footprint_reactionUpdate : (c.reactionUpdateEntry (K := K)).Footprint := by
  have hfirst : c.fields.concentration ∈ [c.fields.concentration, c.fields.reactionFlux] := by simp
  refine .of_single (Field.declaredIn_location hfirst Nat.one_pos 0) rfl ?_
  refine All.add_pair combines_reading (all_access.2 (Field.reading_center hfirst rfl 0))
    (all_access.2 (Field.reading_center ?_ rfl 0))
  simp

theorem footprint_reaction (species : ℕ) : (c.reactionEntry (K := K) species).Footprint where
  targets t ht := by
    change t ∈ (c.reaction (K := K) species).targets at ht
    rw [targets_reaction] at ht
    obtain ⟨i, hi, rfl⟩ := List.mem_map.1 ht
    refine ⟨⟨{ (c.fields.species (i + 1)).reactionFlux with ghostLayers := c.ghostLayers },
      List.mem_append_right _ ?_, ?_, Nat.one_pos⟩, rfl⟩
    · exact List.mem_map_of_mem (List.mem_map_of_mem hi)
    · change "r" ++ "_" ++ toString (i + 1) = "r_" ++ toString (i + 1)
      rfl
  main a ha := by
    change a ∈ c.reactionMain species at ha
    rw [reactionMain_eq] at ha
    obtain ⟨i, -, rfl⟩ := List.mem_map.1 ha
    refine All.mul_pair combines_reading
      (all_reactionSpeed combines_reading (fun f hf => ?_) (all_symbol.2 trivial) fun e he => ?_)
      (all_symbol.2 trivial)
    · refine Field.reading_center (List.mem_append_left _ hf) ?_ 0
      obtain ⟨s, hs, rfl⟩ := List.mem_map.1 hf
      obtain ⟨k, -, rfl⟩ := List.mem_map.1 hs
      rfl
    · obtain ⟨k, -, rfl⟩ := List.mem_map.1 he
      exact all_symbol.2 trivial
  subexpressions := ⟨0, rfl⟩

variable {c}

/-- Every kernel of a catalog keeps to its list of fields. -/
theorem footprint_of_mem_catalog {kernel : Kernel K} (h : kernel ∈ c.catalog) :
    kernel.Footprint := by
  rcases mem_catalog.1 h with (h | h) | ⟨species, -, rfl⟩
  · simp only [fluxEntries, List.mem_cons, List.not_mem_nil, or_false] at h
    rcases h with rfl | rfl
    · exact c.footprint_transport
    · exact c.footprint_noisyTransport
  · simp only [cellEntries, List.mem_cons, List.not_mem_nil, or_false] at h
    rcases h with rfl | rfl | rfl
    · exact c.footprint_continuity
    · exact c.footprint_chargeUpdate
    · exact c.footprint_reactionUpdate
  · exact c.footprint_reaction species

/-- All fields that a kernel lists have the ghost layers of the configuration. -/
theorem ghostLayers_of_mem_catalog {kernel : Kernel K} (h : kernel ∈ c.catalog) :
    ∀ f ∈ kernel.fields, f.ghostLayers = c.ghostLayers := by
  rcases mem_catalog.1 h with (h | h) | ⟨species, -, rfl⟩
  · simp only [fluxEntries, List.mem_cons, List.not_mem_nil, or_false] at h
    rcases h with rfl | rfl <;>
      simp [noisyTransportEntry, transportFields, fields, KernelFields.declare]
  · simp only [cellEntries, List.mem_cons, List.not_mem_nil, or_false] at h
    rcases h with rfl | rfl | rfl <;> simp [fields, KernelFields.declare, reactionUpdateEntry]
  · intro f hf
    rcases List.mem_append.1 hf with hf | hf
    all_goals
      obtain ⟨s, hs, rfl⟩ := List.mem_map.1 hf
      obtain ⟨k, -, rfl⟩ := List.mem_map.1 hs
      rfl

end Config

end Electrokinetics
