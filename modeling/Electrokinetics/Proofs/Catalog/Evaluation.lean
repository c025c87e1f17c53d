/-
**The kernels of a catalog can always be evaluated.**

Evaluation has six ways to fail.  For a generated kernel none of them happens, at whatever cell it is
evaluated: its derivatives are discretised, its functions have their arguments, every field and every
parameter that it looks up is listed, and with positive extents the keys of its random numbers are
integers.  This is about doubles: coordinates of 64 bits and extents above `2 ^ 53` are rounded on
their way into a key, but they are rounded to integers.

Cells have coordinates of 64 bits, and a source has values at these cells only.  Where an offset leads
from the first or the last of them over the end, the coordinate wraps around, so that the cell that is
read is one of them again; where additions are checked, an evaluation ends there without a result.
Everywhere else nothing wraps, and the cell that is read is the neighbour.

Main definitions:

* `Cell.Storable`, `Cell.wrapped` — a cell with coordinates of 64 bits, and the one that a cell wraps
  around to;
* `FieldValues.Provide` — a source with values for all components of some fields;
* `FieldValues.wrapping` — a source that is read at wrapped cells;
* `Parameter.Admits`, `Bindings.Provide` — values that parameters may have, and bindings that have
  such a value for each of some parameters.

Main results:

* `exists_eval_foldedDraw` — every random number can be drawn;
* `Kernel.Footprint.exists_evalAt` — a kernel that keeps to its lists can be evaluated;
* `Config.evaluation_total` — every kernel of a catalog can be evaluated.
-/

import Electrokinetics.Proofs.Catalog.Footprint
import Electrokinetics.Proofs.Scalar.LargeInteger

set_option relaxedAutoImplicit false
set_option autoImplicit false

namespace Electrokinetics

open Electrokinetics.Expr

/-! ### What a kernel is given -/

/-- The coordinates of a cell are 64-bit signed integers. -/
def Cell.Storable (x : Cell) : Prop := ∀ axis, -2 ^ 63 ≤ x.get axis ∧ x.get axis < 2 ^ 63

/-- The cell whose coordinates are those of a cell, wrapped around to 64-bit signed integers. -/
def Cell.wrapped (x : Cell) : Cell := x.map fun i => (Int64.ofInt i).toInt

/-- A source has a value for every component of some fields at every cell with coordinates of 64
bits. -/
def FieldValues.Provide {K : Type} (values : FieldValues K) (fields : List Field) : Prop :=
  ∀ f ∈ fields, ∀ k < f.components, ∀ x, Cell.Storable x → ∃ v, values f.name k x = some v

/-- A source that is read at wrapped cells. -/
def FieldValues.wrapping {K : Type} (values : FieldValues K) : FieldValues K :=
  fun field component x => values field component (Cell.wrapped x)

/-- A double that a parameter may have as its value: extents are positive integers, time step and
seed integers that are not negative, and anything else is any double. -/
def Parameter.Admits : Parameter → Float → Prop
  | .extent _, v => Scalar.isInteger v = true ∧ 0 < v
  | .timeStep, v => Scalar.isInteger v = true ∧ ¬ v < 0
  | .seed, v => Scalar.isInteger v = true ∧ ¬ v < 0
  | .diffusion, _ => True
  | .valency, _ => True
  | .rate, _ => True

instance (p : Parameter) (v : Float) : Decidable (p.Admits v) :=
  match p with
  | .extent _ => inferInstanceAs (Decidable (Scalar.isInteger v = true ∧ 0 < v))
  | .timeStep => inferInstanceAs (Decidable (Scalar.isInteger v = true ∧ ¬ v < 0))
  | .seed => inferInstanceAs (Decidable (Scalar.isInteger v = true ∧ ¬ v < 0))
  | .diffusion => instDecidableTrue
  | .valency => instDecidableTrue
  | .rate => instDecidableTrue

/-- Bindings have a value for each of some symbols, one that the parameter of that name may have. -/
def Bindings.Provide (b : Bindings Float) (symbols : List Symbol) : Prop :=
  ∀ s ∈ symbols, ∃ v, b.get? s.name = some v ∧ ∀ p : Parameter, p.symbol = s → p.Admits v

theorem Bindings.Provide.mono {b : Bindings Float} {symbols symbols' : List Symbol}
    (h : b.Provide symbols) (hsub : symbols' ⊆ symbols) : b.Provide symbols' :=
  fun s hs => h s (hsub hs)

theorem Cell.storable_wrapped (x : Cell) : Cell.Storable (Cell.wrapped x) := fun axis => by
  rw [wrapped, PerAxis.get_map]
  exact ⟨Int64.le_toInt _, Int64.toInt_lt _⟩

theorem Cell.wrapped_of_storable {x : Cell} (h : Cell.Storable x) : Cell.wrapped x = x :=
  PerAxis.ext_get fun axis => by
    rw [wrapped, PerAxis.get_map]
    exact Int64.toInt_ofInt_of_le (h axis).1 (h axis).2

/-- Wrapped cells have values wherever they come from. -/
theorem FieldValues.Provide.exists_wrapping {K : Type} {values : FieldValues K}
    {fields : List Field} (h : values.Provide fields) {a : Access} (ha : a.DeclaredIn fields)
    (x : Cell) : ∃ v, values.wrapping a.field a.component x = some v := by
  obtain ⟨f, hf, hname, hcomponent⟩ := ha
  rw [← hname]
  exact h f hf a.component hcomponent _ (Cell.storable_wrapped x)

/-! ### Random numbers -/

section Draws

variable {values : FieldValues Float} {b : Bindings Float} {x : Cell}

theorem exists_eval_foldedCounter {axis : Axis} {v : Float} (hx : x.Storable)
    (hv : b.get? (Parameter.extent axis).name = some v)
    (hadmits : (Parameter.extent axis).Admits v) :
    ∃ i r, (modulo (counter axis) (Parameter.extent axis).expr).eval ⟨values, b, x⟩ = .ok r ∧
      KeyPart.counter.toInteger r = .ok i := by
  obtain ⟨hinteger, hpos⟩ := hadmits
  have hzero := Double.isZero_of_pos hpos
  have hcoordinate : Scalar.isInteger (Scalar.ofInt (x.get axis) : Float) = true := by
    have hstorable := hx axis
    exact Double.isInteger_ofInt (by omega)
  refine ⟨_, Scalar.rem (Scalar.ofInt (x.get axis)) v, ?_,
    if_pos (Double.isInteger_rem hcoordinate hinteger hzero)⟩
  refine bind_eq_ok.2 ⟨v, eval_parameter hv, ?_⟩
  rw [hzero]
  rfl

theorem exists_toNatural (part : KeyPart) {v : Float} (hinteger : Scalar.isInteger v = true)
    (hnonneg : ¬ v < 0) : ∃ n, part.toNatural v = .ok n := by
  have hi := Double.toInteger_nonneg hnonneg
  refine ⟨(Scalar.toInteger v).toNat, bind_eq_ok.2 ⟨Scalar.toInteger v, if_pos hinteger, ?_⟩⟩
  rw [if_neg (Int.not_lt.2 hi)]

/-- Every random number can be drawn. -/
theorem exists_eval_foldedDraw {k : ℕ} (hb : b.Provide (foldedDraw k : Expr Float).symbols)
    (hx : x.Storable) : ∃ v, (foldedDraw k).eval ⟨values, b, x⟩ = .ok v := by
  have hparameter {p : Parameter} (hp : p ∈ drawParameters) :
      ∃ v, b.get? p.name = some v ∧ p.Admits v := by
    have hmem : p.symbol ∈ (foldedDraw k : Expr Float).symbols := by
      rw [symbols_foldedDraw]
      exact List.mem_map_of_mem hp
    obtain ⟨v, hv, hadmits⟩ := hb _ hmem
    exact ⟨v, hv, hadmits p rfl⟩
  have hcounter (axis : Axis) : ∃ i v,
      (modulo (counter axis) (Parameter.extent axis).expr).eval ⟨values, b, x⟩ = .ok v ∧
        KeyPart.counter.toInteger v = .ok i := by
    obtain ⟨v, hv, hadmits⟩ := hparameter (p := .extent axis) (by cases axis <;> decide)
    exact exists_eval_foldedCounter hx hv hadmits
  choose i hi using hcounter
  obtain ⟨u, hu, htime⟩ := hparameter (p := .timeStep) (by decide)
  obtain ⟨w, hw, hseed⟩ := hparameter (p := .seed) (by decide)
  obtain ⟨t, ht⟩ := exists_toNatural .timeStep htime.1 htime.2
  obtain ⟨s, hs⟩ := exists_toNatural .seed hseed.1 hseed.2
  refine ⟨_, eval_foldedDraw_of_key (i := .ofFn i) (fun axis => ?_) ⟨u, hu, ht⟩ ⟨w, hw, hs⟩ k⟩
  rw [PerAxis.get_ofFn]
  exact hi axis

end Draws

/-! ### Kernels -/

namespace Kernel.Footprint

variable {kernel : Kernel Float}

/-- The parameters of the draws are parameters of the kernel. -/
theorem symbols_foldedDraw_subset {n : ℕ}
    (hn : kernel.collection.subexpressions = (List.range n).map foldedNoise) {k : ℕ} (hk : k < n) :
    (foldedDraw k : Expr Float).symbols ⊆ kernel.collection.parameters := by
  intro s hs
  refine Collection.mem_parameters.2 ⟨⟨foldedDraw k, List.mem_append_left _ ?_, hs⟩, ?_⟩
  · rw [hn, List.map_map]
    exact List.mem_map.2 ⟨k, List.mem_range.2 hk, rfl⟩
  · rw [symbols_foldedDraw] at hs
    obtain ⟨p, -, rfl⟩ := List.mem_map.1 hs
    rw [Collection.names, hn, List.map_map]
    rintro hname
    obtain ⟨i, -, hname⟩ := List.mem_map.1 hname
    exact noiseName_ne_parameter i p hname

/-- A kernel that keeps to its lists can be evaluated. -/
theorem exists_evalAt (h : kernel.Footprint) {values : FieldValues Float} {b : Bindings Float}
    {x : Cell} (hvalues : ∀ a : Access, a.DeclaredIn kernel.fields →
      ∃ v, values a.field a.component (x + a.offset) = some v)
    (hb : b.Provide kernel.collection.parameters) (hx : x.Storable) :
    ∃ ws, kernel.collection.evalAt values b x = .ok ws := by
  obtain ⟨n, hn⟩ := h.subexpressions
  have hdraw (k : ℕ) (hk : k ∈ List.range n) :
      ∃ v, (foldedDraw k).eval ⟨values, b, x⟩ = .ok v := by
    have hsubset := symbols_foldedDraw_subset hn (List.mem_range.1 hk)
    exact exists_eval_foldedDraw (hb.mono hsubset) hx
  choose! draw hdraw using hdraw
  obtain ⟨b', hbound, hdrawn, hothers⟩ := Collection.bindAll_foldedNoise hdraw
  -- A main value looks up random numbers, which are bound now, and parameters, which still are.
  have hsymbol {a : Assignment Float} (ha : a ∈ kernel.collection.main) {s : Symbol}
      (hs : s ∈ a.value.symbols) : ∃ v, b'.get? s.name = some v := by
    by_cases hname : ∃ k ∈ List.range n, s.name = noiseName k
    · obtain ⟨k, hk, hname⟩ := hname
      exact ⟨draw k, hname ▸ hdrawn k hk⟩
    · have hother : ∀ k ∈ List.range n, s.name ≠ noiseName k := fun k hk h => hname ⟨k, hk, h⟩
      have hparameter : s ∈ kernel.collection.parameters := by
        refine Collection.mem_parameters.2
          ⟨⟨a.value, List.mem_append_right _ (List.mem_map_of_mem ha), hs⟩, fun hmem => ?_⟩
        rw [Collection.names, hn, List.map_map] at hmem
        obtain ⟨k, hk, hmem⟩ := List.mem_map.1 hmem
        exact hother k hk hmem.symm
      obtain ⟨v, hv, -⟩ := hb s hparameter
      exact ⟨v, (hothers s.name hother).trans hv⟩
  have hmain (a : Assignment Float) (ha : a ∈ kernel.collection.main) :
      ∃ v, a.value.eval ⟨values, b', x⟩ = .ok v :=
    exists_eval (h.main a ha).reading_symbols (fun r hr => hvalues r hr.1) fun s hs =>
      hsymbol ha hs
  obtain ⟨ws, hws⟩ := Collection.exists_evalMain hmain
  refine ⟨ws, bind_eq_ok.2 ⟨⟨values, b', x⟩, ?_, hws⟩⟩
  rw [hn]
  exact hbound

end Kernel.Footprint

namespace Config

variable {c : Config}

/-- Every kernel of a catalog can be evaluated at every cell with coordinates of 64 bits, given a value
for each component of its fields at these cells and for each of its parameters, and writes one value
for each of its assignments, in order.  Where it reads no cell beyond them, nothing wraps around.  It
reads and writes components that its fields have.  Time steps and seeds of `2 ^ 63` and more are not
excluded: they are read as the greatest 64-bit integer. -/
theorem evaluation_total (h : c.validate = .ok ()) :
    ∃ set : KernelSet Float, c.kernelSet = .ok set ∧ ∀ kernel ∈ set.kernels,
      (∀ (values : FieldValues Float) (b : Bindings Float) (x : Cell),
        values.Provide kernel.fields → b.Provide kernel.collection.parameters → x.Storable →
          ∃ writes, kernel.collection.evalAt values.wrapping b x = .ok writes ∧
            writes.map Prod.fst = kernel.collection.targets ∧
            ((∀ a ∈ kernel.collection.reads, Cell.Storable (x + a.offset)) →
              kernel.collection.evalAt values b x = .ok writes)) ∧
      ∀ a, a ∈ kernel.collection.reads ∨ a ∈ kernel.collection.targets →
        a.DeclaredIn kernel.fields := by
  obtain ⟨set, hset, hkernels⟩ := exists_kernelSet (K := Float) h
  refine ⟨set, hset, fun kernel hkernel => ?_⟩
  rw [hkernels] at hkernel
  have hfootprint := footprint_of_mem_catalog hkernel
  refine ⟨fun values b x hvalues hb hx => ?_, ?_⟩
  · obtain ⟨ws, hws⟩ :=
      hfootprint.exists_evalAt (fun a ha => hvalues.exists_wrapping ha (x + a.offset)) hb hx
    refine ⟨ws, hws, Collection.map_fst_evalAt hws, fun hreads => ?_⟩
    rw [← hws]
    refine Collection.evalAt_congr_reads fun a ha => ?_
    rw [FieldValues.wrapping, Cell.wrapped_of_storable (hreads a ha)]
  · rintro a (hread | htarget)
    · exact (hfootprint.mem_reads hread).1
    · exact (hfootprint.targets a htarget).1

/-- The kernel with noise has no parameters but the declared ones. -/
theorem mem_parameters_noisyTransport {K : Type} [Scalar K] {s : Symbol}
    (h : s ∈ (c.noisyTransport (K := K)).parameters) : ∃ p : Parameter, p.symbol = s := by
  obtain ⟨⟨e, he, hs⟩, hname⟩ := Collection.mem_parameters.1 h
  rw [Collection.names, subexpressions_noisyTransport, List.map_map] at hname
  rcases List.mem_append.1 he with he | he
  · rw [subexpressions_noisyTransport, List.map_map] at he
    obtain ⟨k, -, rfl⟩ := List.mem_map.1 he
    obtain ⟨p, -, hp⟩ := List.mem_map.1 (symbols_foldedDraw (K := K) k ▸ hs)
    exact ⟨p, hp⟩
  · obtain ⟨a, ha, rfl⟩ := List.mem_map.1 he
    rw [main_noisyTransport] at ha
    obtain ⟨⟨direction, k⟩, hp, rfl⟩ := List.mem_map.1 ha
    have hdirection := List.fst_mem_of_mem_zipIdx hp
    have hk : k < c.stencil.staggered.length := (List.snd_lt_of_mem_zipIdx hp).trans_eq (add_zero _)
    let S (s : Symbol) : Prop := (∃ p : Parameter, p.symbol = s) ∨ s = ⟨noiseName k, .real⟩
    have hreading := reading_noisyValue (K := K) (S := S) hdirection (Or.inl ⟨_, rfl⟩)
      (Or.inl ⟨_, rfl⟩) (Or.inr rfl)
    -- The random number of the direction is no parameter, as it is bound by the kernel.
    rcases hreading.of_mem_symbols hs with hparameter | rfl
    · exact hparameter
    · exact absurd (List.mem_map.2 ⟨k, List.mem_range.2 hk, rfl⟩) hname

/-- Bindings with a value for each declared parameter have one for each of the kernel with noise. -/
theorem provide_of_admits {b : Bindings Float}
    (h : ∀ p : Parameter, ∃ v, b.get? p.name = some v ∧ p.Admits v) :
    b.Provide (c.noisyTransport (K := Float)).parameters := by
  intro s hs
  obtain ⟨p, rfl⟩ := mem_parameters_noisyTransport hs
  obtain ⟨v, hv, hadmits⟩ := h p
  refine ⟨v, hv, fun q hq => ?_⟩
  obtain rfl : q = p := Parameter.name_injective (congrArg Symbol.name hq)
  exact hadmits

/-- The kernel with noise, at a cell in the last corner of those whose neighbours have coordinates of
64 bits. -/
theorem evaluation_total_corner :
    let values : FieldValues Float := fun _ component y => some (Scalar.ofInt (y.x + component))
    let b : Bindings Float := .ofList (Parameter.all.map fun p => (p.name, 3))
    let x : Cell := ⟨2 ^ 63 - 2, -2 ^ 63 + 1, 0⟩
    ∃ (set : KernelSet Float) (kernel : Kernel Float) (writes : List (Access × Float)),
      reference.kernelSet = .ok set ∧ kernel ∈ set.kernels ∧ kernel.name = noisyFluxKernelName ∧
        kernel.collection.evalAt values b x = .ok writes ∧
        writes.map Prod.fst = kernel.collection.targets := by
  intro values b x
  obtain ⟨set, hset, htotal⟩ := evaluation_total (c := reference) rfl
  obtain ⟨-, hkernels⟩ := kernels_eq_catalog hset
  let kernel : Kernel Float := reference.noisyTransportEntry
  have hkernel : kernel ∈ set.kernels := by
    rw [hkernels]
    exact noisyTransportEntry_mem_catalog
  have hvalues : values.Provide kernel.fields := fun f _ k _ y _ => ⟨_, rfl⟩
  have hb : b.Provide kernel.collection.parameters := by
    refine provide_of_admits fun p => ⟨3, ?_, ?_⟩
    · cases p with
      | extent axis => cases axis <;> rfl
      | _ => rfl
    · have hadmits : ∀ p ∈ Parameter.all, p.Admits 3 := by decide
      exact hadmits p (Parameter.mem_all p)
  have hinner (axis : Axis) : -2 ^ 63 < x.get axis ∧ x.get axis < 2 ^ 63 - 1 := by
    cases axis <;> decide
  have hx : x.Storable := fun axis => by
    have h := hinner axis
    omega
  have hreads : ∀ a ∈ kernel.collection.reads, Cell.Storable (x + a.offset) := by
    intro a ha axis
    have hnear := (footprint_noisyTransport reference).mem_reads ha |>.2 axis
    have h := hinner axis
    rw [PerAxis.get_add]
    change (a.offset.get axis).natAbs ≤ 1 at hnear
    omega
  obtain ⟨writes, -, htargets, hwrites⟩ := (htotal kernel hkernel).1 values b x hvalues hb hx
  exact ⟨set, kernel, writes, hset, hkernel, rfl, hwrites hreads, htargets⟩

end Config

end Electrokinetics
