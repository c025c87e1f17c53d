/-
**Advection leaves no cell with less than nothing.**

A displaced box falls apart into what stays and what lands in the 26 cells around it, and no part is
negative as long as the box moves by at most one cell.  The stencils without corners or edges leave
some of the parts in the cell, and so in every case the neighbours together take at most the content of
a cell.  The update even takes only the share of it that the face area allows, and gives what the
neighbours send, which is not negative either.  This holds of every cell with its own velocity, and it
does not matter whether two of its neighbours stand for one cell, or for the cell itself.

Main definitions:

* `released`, `received` — what a box sends to the neighbours, and what a cell gets from them;
* `Store.Advectable` — concentrations that are not negative and velocities of at most one cell;
* `AdvectionStep` — both sweeps of a step.

Main results:

* `released_le_one` — no box sends more than it holds;
* `stepped_advectiveFace` — a step as what a cell gets and what it sends;
* `advection_keeps_nonneg` — both sweeps of a step;
* `Store.Advectable.of_run` — any number of steps.
-/

import Electrokinetics.Proofs.Transport.Symmetry
import Mathlib.Algebra.Order.BigOperators.Group.List
import Mathlib.Logic.Relation

set_option relaxedAutoImplicit false
set_option autoImplicit false

namespace Electrokinetics

/-! ### What a box sends -/

section Parts

variable {K : Type} [OrderedField K] {u : PerAxis K} {stencil : Stencil}

theorem share_nonneg {a : K} (ha : |a| ≤ 1) (m : ℤ) : 0 ≤ share m a := by
  rw [share]
  split
  · exact sub_nonneg.2 ha
  · exact le_max_left 0 _

theorem landed_nonneg (hu : ∀ axis, |u.get axis| ≤ 1) (m : Offset) : 0 ≤ landed m u := by
  refine List.prod_nonneg fun a ha => ?_
  obtain ⟨axis, -, rfl⟩ := List.mem_map.1 ha
  exact share_nonneg (hu axis) _

/-- What is not negative does not grow when only some of the cells around a cell are its neighbours. -/
theorem Stencil.sum_offsets_le_sum_cube (stencil : Stencil) {f : Offset → K} (hf : ∀ n, 0 ≤ f n) :
    (stencil.offsets.map f).sum ≤ (Offset.cube.map f).sum := by
  rw [sum_cube, stencil.sum_offsets]
  refine le_add_of_nonneg_of_le (hf 0) ((stencil.staggered_sublist.map _).sum_le_sum fun a ha => ?_)
  obtain ⟨direction, -, rfl⟩ := List.mem_map.1 ha
  exact add_nonneg (hf _) (hf _)

/-- What a displaced box sends to the neighbours of its cell. -/
def released (stencil : Stencil) (u : PerAxis K) : K :=
  (stencil.offsets.map fun n => landed n u).sum

/-- What a cell gets from the displaced boxes of its neighbours. -/
def received (stencil : Stencil) (C : Cell → K) (V : Cell → PerAxis K) (x : Cell) : K :=
  (stencil.offsets.map fun n => C (x + n) * landed (-n) (V (x + n))).sum

/-- No box sends more than it holds. -/
theorem released_le_one (stencil : Stencil) (hu : ∀ axis, |u.get axis| ≤ 1) :
    released stencil u ≤ 1 := by
  rw [← sum_landed u]
  exact stencil.sum_offsets_le_sum_cube (landed_nonneg hu)

theorem received_nonneg (stencil : Stencil) {C : Cell → K} {V : Cell → PerAxis K}
    (hC : ∀ x, 0 ≤ C x) (hV : ∀ axis x, |(V x).get axis| ≤ 1) (x : Cell) :
    0 ≤ received stencil C V x := by
  refine List.sum_nonneg fun a ha => ?_
  obtain ⟨n, -, rfl⟩ := List.mem_map.1 ha
  exact mul_nonneg (hC _) (landed_nonneg (fun axis => hV axis _) _)

/-- The fluxes out of a cell are what its box sends, less what the cell gets. -/
theorem sum_offsets_advectiveFace (stencil : Stencil) (C : Cell → K) (V : Cell → PerAxis K)
    (x : Cell) :
    (stencil.offsets.map fun n => advectiveFace C V n x).sum =
      C x * released stencil (V x) - received stencil C V x := by
  rw [eq_sub_iff_add_eq, received, ← List.sum_map_add, released, ← List.sum_map_mul_left]
  simp only [advectiveFace, sub_add_cancel]

end Parts

/-! ### The value of a cell after a step -/

namespace FiniteVolume

variable {C : Cell → ℝ} {V : Cell → PerAxis ℝ}

/-- A step of advection, as what stays in a cell and what it gets. -/
theorem stepped_advectiveFace (stencil : Stencil) (C : Cell → ℝ) (V : Cell → PerAxis ℝ) (x : Cell) :
    stepped stencil C (advectiveFace C V) x =
      C x * (1 - released stencil (V x) * faceWeight stencil) +
        received stencil C V x * faceWeight stencil := by
  rw [stepped_eq stencil C advectiveFace_opposite, sum_offsets_advectiveFace, div_faceArea]
  ring

theorem stepped_advectiveFace_nonneg (stencil : Stencil) (hC : ∀ x, 0 ≤ C x)
    (hV : ∀ axis x, |(V x).get axis| ≤ 1) (x : Cell) :
    0 ≤ stepped stencil C (advectiveFace C V) x := by
  have hweight : 0 ≤ faceWeight stencil := (faceWeight_pos stencil).le
  have hsent : released stencil (V x) * faceWeight stencil ≤ 1 :=
    mul_le_one₀ (released_le_one stencil fun axis => hV axis x) hweight (faceWeight_le_one stencil)
  rw [stepped_advectiveFace]
  exact add_nonneg (mul_nonneg (hC x) (sub_nonneg.2 hsent))
    (mul_nonneg (received_nonneg stencil hC hV x) hweight)

end FiniteVolume

/-! ### Steps and runs -/

section Run

variable {domain : Domain} {s s' s'' : Store ℝ domain} {j v c : Field} {stencil : Stencil}
  {flux : PerAxis (Expr ℝ)} {b : Bindings ℝ}

/-- Every cell holds a concentration that is not negative, and moves by at most one cell along every
axis. -/
structure Store.Advectable (s : Store ℝ domain) (c v : Field) : Prop where
  /-- There is no less than nothing in any cell. -/
  nonneg : ∀ x, ∃ a, s.get? c.name 0 x = some a ∧ 0 ≤ a
  /-- No cell moves further than to its neighbours. -/
  slow : ∀ (axis : Axis) (x : Cell), ∃ u, s.get? v.name axis.index x = some u ∧ |u| ≤ 1

/-- Both sweeps of a step of advection, from a store to the store that they leave. -/
def AdvectionStep (j v c : Field) (flux : PerAxis (Expr ℝ)) (b : Bindings ℝ)
    (s s' : Store ℝ domain) : Prop :=
  ∃ advective update s₁, advectiveFlux j v c = .ok advective ∧
    FiniteVolume.update ⟨c, flux⟩ j = .ok update ∧
    advective.sweepInterior s b = .ok s₁ ∧ update.sweepInterior s₁ b = .ok s'

/-- A step comes to one store only. -/
theorem AdvectionStep.unique (h : AdvectionStep j v c flux b s s')
    (h' : AdvectionStep j v c flux b s s'') : s' = s'' := by
  obtain ⟨advective, update, s₁, hadvective, hupdate, hs₁, hs'⟩ := h
  obtain ⟨advective', update', s₁', hadvective', hupdate', hs₁', hs''⟩ := h'
  obtain rfl := Except.ok.inj (hadvective.symm.trans hadvective')
  obtain rfl := Except.ok.inj (hupdate.symm.trans hupdate')
  obtain rfl := Except.ok.inj (hs₁.symm.trans hs₁')
  exact Except.ok.inj (hs'.symm.trans hs'')

/-- A step leaves all fields alone but the fluxes and the concentration. -/
theorem AdvectionStep.get?_other (h : AdvectionStep j v c flux b s s')
    (hj : j.kind = .flux stencil) (hcomponents : Axis.z.index < v.components) {field : String}
    (hfluxes : field ≠ j.name) (hconcentration : field ≠ c.name) (component : ℕ) (x : Cell) :
    s'.get? field component x = s.get? field component x := by
  obtain ⟨advective, update, s₁, hadvective, hupdate, hs₁, hs'⟩ := h
  obtain rfl := Except.ok.inj (hadvective.symm.trans (advectiveFlux_eq hj hcomponents))
  obtain rfl := Except.ok.inj (hupdate.symm.trans (FiniteVolume.update_eq ⟨c, flux⟩ hj))
  rw [Collection.get?_sweep_of_notMem hs' (fun hcolumn => ?_),
    Collection.get?_sweep_of_notMem hs₁ (Collection.notMem_columns_ofFaces hfluxes)]
  exact hconcentration (Prod.mk.inj (List.mem_singleton.1 hcolumn)).1

/-- A step succeeds, and leaves no negative concentration. -/
theorem Store.Advectable.exists_step (h : s.Advectable c v) (hj : j.kind = .flux stencil)
    (hcomponents : Axis.z.index < v.components) (hname : c.name ≠ j.name)
    (flux : PerAxis (Expr ℝ)) (b : Bindings ℝ) :
    ∃ s', AdvectionStep j v c flux b s s' ∧ ∀ x, ∃ a, s'.get? c.name 0 x = some a ∧ 0 ≤ a := by
  choose C hC hnonneg using h.nonneg
  choose U hU hslow using h.slow
  let V (x : Cell) : PerAxis ℝ := .ofFn fun axis => U axis x
  have hV (axis : Axis) (x : Cell) : (V x).get axis = U axis x := PerAxis.get_ofFn _ axis
  obtain ⟨advective, update, s₁, s', hadvective, hupdate, hs₁, hs', hvalue⟩ :=
    exists_advection_sweeps (V := V) hj hcomponents hname hC (fun axis x => by rw [hU, hV]) flux b
  refine ⟨s', ⟨advective, update, s₁, hadvective, hupdate, hs₁, hs'⟩, fun x => ⟨_, hvalue x, ?_⟩⟩
  exact FiniteVolume.stepped_advectiveFace_nonneg stencil hnonneg
    (fun axis x => (hV axis x).symm ▸ hslow axis x) x

/-- With velocities in a field of their own, a step leaves what it needs. -/
theorem Store.Advectable.of_step (h : s.Advectable c v) (hj : j.kind = .flux stencil)
    (hcomponents : Axis.z.index < v.components) (hname : c.name ≠ j.name)
    (hfluxes : v.name ≠ j.name) (hconcentration : v.name ≠ c.name)
    (hstep : AdvectionStep j v c flux b s s') : s'.Advectable c v := by
  refine ⟨?_, fun axis x => ?_⟩
  · obtain ⟨s'', hstep', hnonneg⟩ := h.exists_step hj hcomponents hname flux b
    rw [hstep.unique hstep']
    exact hnonneg
  · rw [hstep.get?_other hj hcomponents hfluxes hconcentration]
    exact h.slow axis x

/-- **No run of advection leaves a negative concentration**, and every run can go on. -/
theorem Store.Advectable.of_run (h : s.Advectable c v) (hj : j.kind = .flux stencil)
    (hcomponents : Axis.z.index < v.components) (hname : c.name ≠ j.name)
    (hfluxes : v.name ≠ j.name) (hconcentration : v.name ≠ c.name)
    (hrun : Relation.ReflTransGen (AdvectionStep j v c flux b) s s') :
    s'.Advectable c v ∧ ∃ s'', AdvectionStep j v c flux b s' s'' := by
  have hreached : s'.Advectable c v := by
    induction hrun with
    | refl => exact h
    | tail _ hstep ih => exact ih.of_step hj hcomponents hname hfluxes hconcentration hstep
  obtain ⟨s'', hstep, -⟩ := hreached.exists_step hj hcomponents hname flux b
  exact ⟨hreached, s'', hstep⟩

/-- **A step of advection keeps concentrations non-negative**, with any stencil and on any periodic
domain: where no cell holds less than nothing and none moves by more than one cell along an axis, the
sweep of the advective fluxes and the sweep of the update succeed, and no cell holds less than nothing
afterwards. -/
theorem advection_keeps_nonneg (s : Store ℝ domain) (b : Bindings ℝ) (j v c : Field)
    (flux : PerAxis (Expr ℝ)) (hj : j.kind = .flux stencil)
    (hcomponents : Axis.z.index < v.components) (hname : c.name ≠ j.name)
    (hnonneg : ∀ x, ∃ a, s.get? c.name 0 x = some a ∧ 0 ≤ a)
    (hslow : ∀ (axis : Axis) (x : Cell), ∃ u, s.get? v.name axis.index x = some u ∧ |u| ≤ 1) :
    ∃ advective update s₁ s₂, advectiveFlux j v c = .ok advective ∧
      FiniteVolume.update ⟨c, flux⟩ j = .ok update ∧
      advective.sweepInterior s b = .ok s₁ ∧ update.sweepInterior s₁ b = .ok s₂ ∧
      ∀ x, ∃ a, s₂.get? c.name 0 x = some a ∧ 0 ≤ a := by
  have hs : s.Advectable c v := ⟨hnonneg, hslow⟩
  obtain ⟨s₂, ⟨advective, update, s₁, hadvective, hupdate, hs₁, hs₂⟩, hkept⟩ :=
    hs.exists_step hj hcomponents hname flux b
  exact ⟨advective, update, s₁, s₂, hadvective, hupdate, hs₁, hs₂, hkept⟩

end Run

/-! ### Opposed winds on a narrow domain -/

/-- Fluid on a narrow domain, none of it in the lowest layer.  Along x, where every cell is its own
neighbour, it moves by a whole cell, and along z one layer moves against the others. -/
noncomputable def opposedStore : Store ℝ .narrow :=
  (((Store.empty.fillWith "c" 0 fun x => (x.z : ℝ)).fill "v" Axis.x.index 1).fillWith "v"
    Axis.y.index fun x => if x.y = 0 then -Scalar.half else Scalar.half).fillWith "v"
    Axis.z.index fun x => if x.z = 1 then -1 else Scalar.half

theorem advectable_opposedStore :
    opposedStore.Advectable (.scalar "c") (.vector "v" 3) := by
  refine ⟨fun x => ⟨(Domain.narrow.foldCell x).z, ?_, ?_⟩, fun axis x => ?_⟩
  · simp [opposedStore, Store.fill, Store.get?_fillWith, Field.scalar]
  · obtain ⟨hlower, -⟩ := Domain.isInterior_iff.1 (Domain.narrow.foldCell_mem x) .z
    exact Int.cast_nonneg hlower
  · cases axis with
    | x =>
        refine ⟨1, ?_, by norm_num⟩
        simp [opposedStore, Store.fill, Store.get?_fillWith, Axis.index, Field.vector]
    | y =>
        refine ⟨if (Domain.narrow.foldCell x).y = 0 then -Scalar.half else Scalar.half, ?_, ?_⟩
        · simp [opposedStore, Store.fill, Store.get?_fillWith, Axis.index, Field.vector]
        · split <;> norm_num [abs_le]
    | z =>
        refine ⟨if (Domain.narrow.foldCell x).z = 1 then -1 else Scalar.half, ?_, ?_⟩
        · simp [opposedStore, Store.fill, Store.get?_fillWith, Axis.index, Field.vector]
        · split <;> norm_num [abs_le]

theorem advection_keeps_nonneg_opposed :
    ∃ advective update s₁ s₂,
      advectiveFlux (.flux "j" .d3q19) (.vector "v" 3) (.scalar "c") = .ok advective ∧
      FiniteVolume.update ⟨.scalar "c", gradient (.num (1 : ℝ))⟩ (.flux "j" .d3q19) = .ok update ∧
      advective.sweepInterior opposedStore ∅ = .ok s₁ ∧ update.sweepInterior s₁ ∅ = .ok s₂ ∧
      ∀ x, ∃ a, s₂.get? "c" 0 x = some a ∧ 0 ≤ a :=
  advection_keeps_nonneg opposedStore ∅ (.flux "j" .d3q19) (.vector "v" 3) (.scalar "c") _ rfl
    (by decide) (by decide) advectable_opposedStore.nonneg advectable_opposedStore.slow

end Electrokinetics
