/-
**Sweeping ghost layers with a catalog.**

Every kernel of a catalog writes at the current cell and reads fields and parameters, and the one
that draws random numbers draws them with folded keys.  So every kernel may be swept over ghost
layers or not, with the same result down to the last bit.

Main definitions:

* `Store.ramps` — a store in which every component of some fields increases from cell to cell.

Main results:

* `Kernel.Footprint.periodic` — a kernel that keeps to its lists is periodic;
* `Config.periodic_of_mem_catalog` — every kernel of a catalog is periodic;
* `Config.sweep_ghostLayers` — sweeps of doubles over a region and over its interior agree.
-/

import Electrokinetics.Proofs.Catalog.Evaluation
import Electrokinetics.Proofs.Scalar.DoubleInteger

set_option relaxedAutoImplicit false
set_option autoImplicit false

namespace Electrokinetics

open Electrokinetics.Expr

variable {K : Type} [Scalar K] {domain : Domain}

theorem Expr.All.periodic {A : Access → Prop} {S : Symbol → Prop} {e : Expr K}
    (h : e.All (Reading A S)) : e.Periodic domain := by
  refine Over.periodic fun t ht hsource => ?_
  have hlook := h t ht
  cases t with
  | symbol s => exact periodic_symbol s
  | access a => exact periodic_access a
  | counter axis => exact absurd hlook id
  | deriv arg axis => exact absurd hlook id
  | random key => exact absurd hlook id
  | _ => cases hsource

/-- A kernel that keeps to its lists does not use coordinates, except in the folded keys of its draws,
and no random number takes the name of an extent. -/
theorem Kernel.Footprint.periodic [IntegerScalar K] {kernel : Kernel K} (h : kernel.Footprint) :
    kernel.collection.Periodic domain := by
  obtain ⟨n, hn⟩ := h.subexpressions
  constructor
  · exact fun a ha => (h.targets a.target (List.mem_map_of_mem ha)).2
  · exact fun a ha => (h.main a ha).periodic
  · rw [hn]
    intro s hs
    obtain ⟨k, -, rfl⟩ := List.mem_map.1 hs
    exact periodic_foldedDraw k
  · rw [hn]
    intro s hs axis
    obtain ⟨k, -, rfl⟩ := List.mem_map.1 hs
    exact noiseName_ne_parameter k (.extent axis)

namespace Config

variable {c : Config}

theorem periodic_of_mem_catalog [IntegerScalar K] {kernel : Kernel K} (h : kernel ∈ c.catalog) :
    kernel.collection.Periodic domain := (footprint_of_mem_catalog h).periodic

/-- Sweeping ghost layers does not change the result of any kernel of a catalog. -/
theorem sweep_ghostLayers {set : KernelSet Float} (hset : c.kernelSet = .ok set)
    {kernel : Kernel Float} (hkernel : kernel ∈ set.kernels) {ghostLayers : ℕ} {r : Region}
    (hr : Region.ofDepth domain ghostLayers = .ok r) (s : Store Float domain)
    {b : Bindings Float} (hb : b.HasExtents domain) :
    ((∃ s', kernel.collection.sweep s b r.cells = .ok s') ↔
      ∃ s', kernel.collection.sweepInterior s b = .ok s') ∧
    ∀ s₁ s₂, kernel.collection.sweep s b r.cells = .ok s₁ →
      kernel.collection.sweepInterior s b = .ok s₂ →
        ∀ field component x, s₁.get? field component x = s₂.get? field component x := by
  obtain ⟨rfl, -⟩ := Region.ofDepth_eq_ok hr
  rw [(kernels_eq_catalog hset).2] at hkernel
  have hperiodic : kernel.collection.Periodic r.domain := periodic_of_mem_catalog hkernel
  exact ⟨hperiodic.exists_sweep_iff hb, fun s₁ s₂ h₁ h₂ => hperiodic.get?_eq hb h₁ h₂⟩

end Config

/-! ### A sweep with noise over a ghost layer -/

namespace Store

omit [Scalar K] in
/-- A column that was filled, or that had values before, has values. -/
theorem exists_get?_foldl_fillWith {columns : List (String × ℕ)} {value : String × ℕ → Cell → K}
    {s : Store K domain} {column : String × ℕ} {x : Cell}
    (h : column ∈ columns ∨ ∃ v, s.get? column.1 column.2 x = some v) :
    ∃ v, (columns.foldl (fun s q => s.fillWith q.1 q.2 (value q)) s).get? column.1 column.2 x =
      some v := by
  induction columns generalizing s with
  | nil => exact h.resolve_left List.not_mem_nil
  | cons q rest ih =>
      refine ih ?_
      rw [get?_fillWith]
      by_cases hq : q = column
      · exact Or.inr ⟨_, if_pos ⟨congrArg Prod.fst hq, congrArg Prod.snd hq⟩⟩
      · refine h.imp (fun hmem => (List.mem_cons.1 hmem).resolve_left (Ne.symm hq)) fun hbefore => ?_
        rwa [if_neg fun heq => hq (Prod.ext heq.1 heq.2)]

/-- A store in which every component of some fields increases from cell to cell along every axis. -/
def ramps (domain : Domain) (fields : List Field) : Store Float domain :=
  let columns := fields.flatMap fun f => (List.range f.components).map fun k => (f.name, k)
  columns.foldl (fun s column => s.fillWith column.1 column.2 fun x =>
    Scalar.ofInt (x.x + x.y + x.z + column.2)) ∅

theorem exists_get?_ramps {fields : List Field} {a : Access} (ha : a.DeclaredIn fields) (x : Cell) :
    ∃ v, (ramps domain fields).get? a.field a.component x = some v := by
  obtain ⟨f, hf, hname, hcomponent⟩ := ha
  have hcolumn : (a.field, a.component) ∈
      fields.flatMap fun f => (List.range f.components).map fun k => (f.name, k) := by
    rw [← hname]
    exact List.mem_flatMap.2 ⟨f, hf, List.mem_map_of_mem (List.mem_range.2 hcomponent)⟩
  exact exists_get?_foldl_fillWith (.inl hcolumn)

end Store

namespace Config

/-- The flux with noise, on a narrow domain with one ghost layer. -/
theorem sweep_ghostLayers_narrow :
    let s := Store.ramps .narrow reference.transportFields
    let value : Parameter → Float := fun p => match p with
      | .extent axis => Scalar.ofInt (Domain.narrow.extent.get axis)
      | _ => 3
    let b : Bindings Float := .ofList (Parameter.all.map fun p => (p.name, value p))
    ∃ (set : KernelSet Float) (kernel : Kernel Float) (r : Region) (s₁ s₂ : Store Float .narrow),
      reference.kernelSet = .ok set ∧ kernel ∈ set.kernels ∧
        kernel.name = "AdvectionDiffusionFluctuation" ∧ Region.ofDepth .narrow 1 = .ok r ∧
        kernel.collection.sweep s b r.cells = .ok s₁ ∧
        kernel.collection.sweepInterior s b = .ok s₂ ∧
        ∀ field component x, s₁.get? field component x = s₂.get? field component x := by
  intro s value b
  obtain ⟨set, hset, hkernels⟩ := exists_kernelSet (K := Float) (c := reference) rfl
  have hkernel : reference.noisyTransportEntry ∈ set.kernels := by
    rw [hkernels]
    exact noisyTransportEntry_mem_catalog
  have hbound (p : Parameter) : b.get? p.name = some (value p) := by
    cases p with
    | extent axis => cases axis <;> rfl
    | _ => rfl
  have hadmits : ∀ p ∈ Parameter.all, p.Admits (value p) := by decide
  have hparameters : b.Provide (reference.noisyTransport (K := Float)).parameters :=
    provide_of_admits fun p => ⟨value p, hbound p, hadmits p (Parameter.mem_all p)⟩
  have hextents : b.HasExtents .narrow := fun axis => hbound (.extent axis)
  have hstorable {x : Cell} (hx : x ∈ (Region.interior .narrow).cells) : Cell.Storable x := by
    have hinside : ∀ x ∈ (Region.interior .narrow).cells, ∀ axis ∈ Axis.all,
        -2 ^ 63 ≤ x.get axis ∧ x.get axis < 2 ^ 63 := by decide
    exact fun axis => hinside x hx axis (Axis.mem_all axis)
  obtain ⟨s₂, hs₂⟩ : ∃ s₂, (reference.noisyTransport (K := Float)).sweepInterior s b = .ok s₂ :=
    Collection.exists_sweep_iff.2 fun x hx => (footprint_noisyTransport reference).exists_evalAt
      (fun a ha => Store.exists_get?_ramps ha (x + a.offset)) hparameters (hstorable hx)
  obtain ⟨r, hregion⟩ : ∃ r, Region.ofDepth .narrow 1 = .ok r := ⟨_, rfl⟩
  obtain ⟨hiff, heq⟩ := sweep_ghostLayers hset hkernel hregion s hextents
  obtain ⟨s₁, hs₁⟩ := hiff.2 ⟨s₂, hs₂⟩
  exact ⟨set, _, r, s₁, s₂, hset, hkernel, rfl, hregion, hs₁, hs₂, heq s₁ s₂ hs₁ hs₂⟩

end Config

end Electrokinetics
