/-
**Reactions keep what their stoichiometry keeps.**

A reaction has one speed, the product of its rate and of powers of the concentrations, and every
species gains this speed times its coefficient.  The speed is built from a list of any length by
functions that leave out powers and factors which do not matter, and it is stored for all species
before any concentration changes.  So the order in which the concentrations are updated is of no
account, and a sum of concentrations with weights that the coefficients cancel is the same in every
cell before and after.

Only sums and products have to be exact for this.  Powers may be any function for which the first power
of a number is that number and the power to the exponent zero is one.

Main definitions:

* `speciesFlux` — what a species gains by a reaction;
* `DistinctNames` — the fields of some species are different ones;
* `Updated` — the state of a store in which some concentrations are up to date.

Main results:

* `eval_reactionSpeed` — the speed of a reaction;
* `exists_sweep_massAction` — the sweep that stores the reaction fluxes;
* `Updated.step`, `Updated.run` — the update of one species, and of several in any order;
* `massAction_conserves` — the weighted sums that a reaction keeps.
-/

import Electrokinetics.Proofs.Scalar.Real
import Electrokinetics.Proofs.Sweep.Order
import Electrokinetics.Proofs.Transport.Values
import Electrokinetics.Transport.Reaction
import Mathlib.Algebra.BigOperators.Fin

set_option relaxedAutoImplicit false
set_option autoImplicit false

namespace Electrokinetics

open Electrokinetics.Expr

variable {K : Type} [Scalar K] {N : ℕ} {domain : Domain} {s : Store K domain} {b : Bindings K}
  {c r : Fin N → Field}

/-! ### The kernel of a reaction -/

/-- The concentrations and the reaction fluxes of some species are different fields. -/
def DistinctNames (c r : Fin N → Field) : Prop :=
  Function.Injective (Sum.elim (fun i => (c i).name) fun i => (r i).name)

namespace DistinctNames

theorem flux_injective (h : DistinctNames c r) : Function.Injective fun i => (r i).name :=
  fun _ _ hij => Sum.inr_injective (h hij)

theorem concentration_ne (h : DistinctNames c r) {i l : Fin N} (hne : l ≠ i) :
    (c l).name ≠ (c i).name := fun hname => hne (Sum.inl_injective (h hname))

theorem flux_ne_concentration (h : DistinctNames c r) (l i : Fin N) :
    (r l).name ≠ (c i).name := by
  intro hname
  have hspecies : (Sum.inr l : Fin N ⊕ Fin N) = Sum.inl i := h hname
  cases hspecies

end DistinctNames

section Kernel

variable {rate : Expr K} {coefficient order : Fin N → Expr K}

theorem reactionSpeed_ofFn (c : Fin N → Field) (rate : Expr K) (order : Fin N → Expr K) :
    reactionSpeed (List.ofFn c) rate (List.ofFn order) =
      mul (rate :: (List.finRange N).map fun l => pow (c l).center (order l)) := by
  rw [reactionSpeed, List.ofFn_eq_map, List.ofFn_eq_map, List.zipWith_map, List.zipWith_self]

/-- The assignments of a reaction: one for each species. -/
def speciesMain (c r : Fin N → Field) (rate : Expr K) (coefficient order : Fin N → Expr K) :
    List (Assignment K) :=
  (List.finRange N).map fun i =>
    ⟨(r i).centerAccess, reactionSpeed (List.ofFn c) rate (List.ofFn order) * coefficient i⟩

theorem targets_speciesMain :
    (speciesMain c r rate coefficient order).map Assignment.target =
      (List.finRange N).map fun i => (r i).centerAccess := by
  rw [speciesMain, List.map_map]
  rfl

/-- The lists have the same length and no target occurs twice, so that there is a kernel. -/
theorem exists_massAction (rate : Expr K) (coefficient order : Fin N → Expr K) (hN : 0 < N)
    (hnames : DistinctNames c r) :
    ∃ kernel : Collection K,
      massAction (List.ofFn c) (List.ofFn r) rate (List.ofFn coefficient) (List.ofFn order) =
        .ok kernel ∧
      kernel.main = speciesMain c r rate coefficient order ∧ kernel.subexpressions = [] := by
  have hnodup : ((speciesMain c r rate coefficient order).map Assignment.target).Nodup := by
    rw [targets_speciesMain]
    refine (List.nodup_finRange N).map fun i l h => ?_
    exact hnames.flux_injective (congrArg Access.field h)
  refine ⟨⟨_, [], hnodup, List.nodup_nil⟩, ?_, rfl, rfl⟩
  simp only [massAction, List.length_ofFn]
  rw [if_neg hN.ne', if_neg (by simp), List.ofFn_eq_map (f := r),
    List.ofFn_eq_map (f := coefficient), List.zipWith_map, List.zipWith_self]
  exact (Collection.ofMain_eq_ok_iff _ _).2 ⟨rfl, rfl⟩

end Kernel

/-! ### The reaction fluxes -/

section Fluxes

variable [OrderedField K] {rate : Expr K} {coefficient order : Fin N → Expr K} {R : K}
  {k o : Fin N → K} {C : Fin N → Cell → K}

/-- What a species gains by a reaction of rate `R`, with coefficients `k` and orders `o`. -/
def speciesFlux (R : K) (k o : Fin N → K) (C : Fin N → Cell → K) (i : Fin N) (x : Cell) : K :=
  R * (∏ l, Scalar.pow (C l x) (o l)) * k i

/-- Weights that the coefficients cancel cancel the fluxes. -/
theorem sum_speciesFlux {w : Fin N → K} (hw : ∑ i, w i * k i = 0) (x : Cell) :
    ∑ i, w i * speciesFlux R k o C i x = 0 := by
  have hterm (i : Fin N) : w i * speciesFlux R k o C i x =
      R * (∏ l, Scalar.pow (C l x) (o l)) * (w i * k i) := by
    rw [speciesFlux]
    ring
  simp only [hterm]
  rw [← Finset.mul_sum, hw, mul_zero]

variable [RingScalar K] (hone : ∀ a : K, Scalar.pow a 1 = a) (hzero : ∀ a : K, Scalar.pow a 0 = 1)

include hone hzero

theorem eval_reactionSpeed {env : Env K} {a : Fin N → K} (hrate : rate.eval env = .ok R)
    (hc : ∀ l, ((c l).center : Expr K).eval env = .ok (a l))
    (horder : ∀ l, (order l).eval env = .ok (o l)) :
    (reactionSpeed (List.ofFn c) rate (List.ofFn order)).eval env =
      .ok (R * ∏ l, Scalar.pow (a l) (o l)) := by
  rw [reactionSpeed_ofFn, Fin.prod_univ_def]
  refine eval_mul_cons_map hrate fun l _ => keeps_pow_access hone hzero _ _ _ ?_
  exact eval_power_eq_ok_iff.2 ⟨a l, o l, hc l, horder l, rfl⟩

/-- The sweep of a reaction stores the fluxes of all species and leaves all other fields alone. -/
theorem exists_sweep_massAction (hN : 0 < N) (hnames : DistinctNames c r)
    (hC : ∀ i, (c i).HasValues s.get? (C i))
    (hrate : ∀ x, rate.eval ⟨s.get?, b, x⟩ = .ok R)
    (hcoefficient : ∀ i x, (coefficient i).eval ⟨s.get?, b, x⟩ = .ok (k i))
    (horder : ∀ i x, (order i).eval ⟨s.get?, b, x⟩ = .ok (o i)) :
    ∃ kernel s₁,
      massAction (List.ofFn c) (List.ofFn r) rate (List.ofFn coefficient) (List.ofFn order) =
        .ok kernel ∧
      kernel.sweepInterior s b = .ok s₁ ∧
      (∀ i, (r i).HasValues s₁.get? (speciesFlux R k o C i)) ∧
      ∀ field component x, (∀ i, field ≠ (r i).name) →
        s₁.get? field component x = s.get? field component x := by
  obtain ⟨kernel, hkernel, hmain, hsubexpressions⟩ :=
    exists_massAction rate coefficient order hN hnames
  have hcolumns : kernel.columns = (List.finRange N).map fun i => ((r i).name, 0) := by
    rw [Collection.columns, Collection.targets, hmain, targets_speciesMain, List.map_map]
    rfl
  have heval (x : Cell) : kernel.evalAt s.get? b x =
      .ok ((List.finRange N).map fun i => ((r i).centerAccess, speciesFlux R k o C i x)) := by
    rw [Collection.evalAt, hsubexpressions, hmain]
    refine bind_eq_ok.2 ⟨_, rfl, Collection.evalMain_map fun i _ => ?_⟩
    exact eval_mul (eval_reactionSpeed hone hzero (hrate x) (fun l => (hC l).eval_center)
      fun l => horder l x) (hcoefficient i x)
  have hperiodic (i : Fin N) (x : Cell) :
      speciesFlux R k o C i (domain.foldCell x) = speciesFlux R k o C i x := by
    simp only [speciesFlux, Store.apply_foldCell (hC _)]
  have hdistinct : kernel.columns.Nodup := by
    rw [hcolumns]
    exact (List.nodup_finRange N).map fun i l h => hnames.flux_injective (Prod.mk.inj h).1
  obtain ⟨s₁, hs₁, hwritten, hkept⟩ :=
    Collection.exists_sweepInterior hdistinct heval (fun _ _ => rfl) hperiodic
  refine ⟨kernel, s₁, hkernel, hs₁, fun i => hwritten i (List.mem_finRange i), ?_⟩
  intro field component x hfield
  refine hkept field component x ?_
  rw [hcolumns]
  intro hmem
  obtain ⟨i, -, hi⟩ := List.mem_map.1 hmem
  exact hfield i (Prod.mk.inj hi).1.symm

end Fluxes

/-! ### The updates -/

section Updates

variable [OrderedField K] {C F : Fin N → Cell → K} {done : List (Fin N)}

/-- The concentration of a species, which has gained its flux if the species is done. -/
def gained (C F : Fin N → Cell → K) (done : List (Fin N)) (i : Fin N) (x : Cell) : K :=
  if i ∈ done then C i x + F i x else C i x

section Gained

omit [Scalar K]

theorem gained_of_mem {i : Fin N} (hi : i ∈ done) (x : Cell) :
    gained C F done i x = C i x + F i x := if_pos hi

theorem gained_of_notMem {i : Fin N} (hi : i ∉ done) (x : Cell) : gained C F done i x = C i x :=
  if_neg hi

theorem gained_cons_self {i : Fin N} (hi : i ∉ done) :
    gained C F (i :: done) i = fun x => gained C F done i x + F i x := by
  funext x
  rw [gained_of_mem List.mem_cons_self, gained_of_notMem hi]

theorem gained_cons_of_ne {i l : Fin N} (hl : l ≠ i) :
    gained C F (i :: done) l = gained C F done l := by
  have hmem : l ∈ i :: done ↔ l ∈ done := by
    rw [List.mem_cons]
    exact or_iff_right hl
  funext x
  simp only [gained, hmem]

end Gained

/-- The species that are done have gained their fluxes, and the others are as they were. -/
structure Updated (c r : Fin N → Field) (C F : Fin N → Cell → K) (done : List (Fin N))
    (s : Store K domain) : Prop where
  concentration : ∀ i, (c i).HasValues s.get? (gained C F done i)
  flux : ∀ i, (r i).HasValues s.get? (F i)

variable [RingScalar K]

theorem exists_sweep_reactionUpdate {c r : Field} {u v : Cell → K} (hc : c.HasValues s.get? u)
    (hr : r.HasValues s.get? v) (b : Bindings K) :
    ∃ s', (reactionUpdate c r).sweepInterior s b = .ok s' ∧
      c.HasValues s'.get? (fun x => u x + v x) ∧
      ∀ field component x, field ≠ c.name →
        s'.get? field component x = s.get? field component x := by
  have heval (x : Cell) : (reactionUpdate c r).evalAt s.get? b x =
      .ok ([()].map fun _ => (c.centerAccess, u x + v x)) :=
    Collection.evalAt_single (eval_add hc.eval_center hr.eval_center)
  have hperiodic (x : Cell) : u (domain.foldCell x) + v (domain.foldCell x) = u x + v x := by
    rw [Store.apply_foldCell hc, Store.apply_foldCell hr]
  have hdistinct : (reactionUpdate c r : Collection K).columns.Nodup := List.nodup_singleton _
  obtain ⟨s', hs', hwritten, hkept⟩ :=
    Collection.exists_sweepInterior hdistinct heval (fun _ _ => rfl) fun _ => hperiodic
  refine ⟨s', hs', hwritten () List.mem_cons_self, fun field component x hne => ?_⟩
  refine hkept field component x fun hmem => hne ?_
  exact (Prod.mk.inj (List.mem_singleton.1 hmem)).1

/-- The update of a species whose turn has not come changes its concentration and nothing else. -/
theorem Updated.step (hnames : DistinctNames c r) (h : Updated c r C F done s) {i : Fin N}
    (hi : i ∉ done) (b : Bindings K) :
    ∃ s', (reactionUpdate (c i) (r i)).sweepInterior s b = .ok s' ∧
      Updated c r C F (i :: done) s' := by
  obtain ⟨s', hs', hvalues, hkept⟩ :=
    exists_sweep_reactionUpdate (h.concentration i) (h.flux i) b
  refine ⟨s', hs', fun l x => ?_, fun l x => ?_⟩
  · by_cases hl : l = i
    · subst hl
      rw [gained_cons_self hi]
      exact hvalues x
    · rw [hkept _ _ _ (hnames.concentration_ne hl), gained_cons_of_ne hl]
      exact h.concentration l x
  · rw [hkept _ _ _ (hnames.flux_ne_concentration l i)]
    exact h.flux l x

/-- Any number of updates, one for each of some species. -/
theorem Updated.run (hnames : DistinctNames c r) (h : Updated c r C F done s)
    {sequence : List (Fin N)} (hnodup : sequence.Nodup) (hnew : ∀ i ∈ sequence, i ∉ done)
    (b : Bindings K) :
    ∃ s', sequence.foldlM (fun s i => (reactionUpdate (c i) (r i)).sweepInterior s b) s = .ok s' ∧
      Updated c r C F (sequence.reverse ++ done) s' := by
  induction sequence generalizing done s with
  | nil => exact ⟨s, rfl, h⟩
  | cons i rest ih =>
      obtain ⟨hi, hrest⟩ := List.nodup_cons.1 hnodup
      obtain ⟨hfirst, hothers⟩ := List.forall_mem_cons.1 hnew
      obtain ⟨s₁, hs₁, h₁⟩ := h.step hnames hfirst b
      have hnew₁ : ∀ l ∈ rest, l ∉ i :: done := by
        intro l hl hmem
        rcases List.mem_cons.1 hmem with rfl | hmem
        · exact hi hl
        · exact hothers l hl hmem
      obtain ⟨s₂, hs₂, h₂⟩ := ih h₁ hrest hnew₁
      refine ⟨s₂, ?_, ?_⟩
      · rw [List.foldlM_cons]
        exact bind_eq_ok.2 ⟨s₁, hs₁, hs₂⟩
      · rw [List.reverse_cons, List.append_assoc]
        exact h₂

end Updates

/-! ### Both -/

section Reaction

variable [OrderedField K] [RingScalar K] {rate : Expr K} {coefficient order : Fin N → Expr K} {R : K}
  {k o : Fin N → K} {C : Fin N → Cell → K}

/-- **Mass action keeps what the coefficients cancel**: for species with fields of their own and with
values everywhere, and for a rate, coefficients and orders that have the same value at every cell, a
reaction has a kernel, whose sweep stores for every species the rate times the powers of all
concentrations times its coefficient.  After that the concentrations can be updated in any order, and
every sum of them with weights that the coefficients cancel is what it was, in every cell. -/
theorem massAction_conserves (hN : 0 < N) (hnames : DistinctNames c r)
    (hC : ∀ i, (c i).HasValues s.get? (C i))
    (hrate : ∀ x, rate.eval ⟨s.get?, b, x⟩ = .ok R)
    (hcoefficient : ∀ i x, (coefficient i).eval ⟨s.get?, b, x⟩ = .ok (k i))
    (horder : ∀ i x, (order i).eval ⟨s.get?, b, x⟩ = .ok (o i))
    (hone : ∀ a : K, Scalar.pow a 1 = a) (hzero : ∀ a : K, Scalar.pow a 0 = 1) :
    ∃ kernel s₁,
      massAction (List.ofFn c) (List.ofFn r) rate (List.ofFn coefficient) (List.ofFn order) =
        .ok kernel ∧
      kernel.sweepInterior s b = .ok s₁ ∧
      (∀ i, (r i).HasValues s₁.get? fun x => R * (∏ l, Scalar.pow (C l x) (o l)) * k i) ∧
      ∀ sequence : List (Fin N), sequence.Perm (List.finRange N) → ∀ b' : Bindings K,
        ∃ (s₂ : Store K domain) (C' : Fin N → Cell → K),
          sequence.foldlM (fun s i => (reactionUpdate (c i) (r i)).sweepInterior s b') s₁ = .ok s₂ ∧
          (∀ i, (c i).HasValues s₂.get? (C' i)) ∧
          ∀ w : Fin N → K, ∑ i, w i * k i = 0 → ∀ x, ∑ i, w i * C' i x = ∑ i, w i * C i x := by
  obtain ⟨kernel, s₁, hkernel, hs₁, hflux, hkept⟩ :=
    exists_sweep_massAction hone hzero hN hnames hC hrate hcoefficient horder
  refine ⟨kernel, s₁, hkernel, hs₁, hflux, fun sequence hperm b' => ?_⟩
  have hstart : Updated c r C (speciesFlux R k o C) [] s₁ := by
    refine ⟨fun i x => ?_, hflux⟩
    rw [hkept _ _ _ fun l => (hnames.flux_ne_concentration l i).symm,
      gained_of_notMem List.not_mem_nil]
    exact hC i x
  obtain ⟨s₂, hs₂, hend⟩ := hstart.run hnames (hperm.nodup_iff.2 (List.nodup_finRange N))
    (fun _ _ => List.not_mem_nil) b'
  refine ⟨s₂, gained C (speciesFlux R k o C) (sequence.reverse ++ []), hs₂, hend.concentration,
    fun w hw x => ?_⟩
  have hdone (i : Fin N) : i ∈ sequence.reverse ++ [] := by
    rw [List.append_nil, List.mem_reverse, hperm.mem_iff]
    exact List.mem_finRange i
  simp only [gained_of_mem (hdone _), mul_add, Finset.sum_add_distrib]
  rw [sum_speciesFlux hw, add_zero]

end Reaction

/-- A species turns into another one at first order; the product is updated first. -/
theorem massAction_conserves_conversion :
    let c : Fin 2 → Field := ![.scalar "a", .scalar "b"]
    let r : Fin 2 → Field := ![.scalar "ra", .scalar "rb"]
    let s : Store ℝ .narrow := (Store.empty.fill "a" 0 2).fill "b" 0 3
    ∃ (kernel : Collection ℝ) (s₁ s₂ : Store ℝ .narrow) (u v : ℝ),
      massAction (List.ofFn c) (List.ofFn r) (.num 5) [.num (-1), .num 1] [.num 1, .num 0] =
        .ok kernel ∧
      kernel.sweepInterior s .empty = .ok s₁ ∧ s₁.get? "rb" 0 0 = some 10 ∧
      [1, 0].foldlM (fun s i => (reactionUpdate (c i) (r i)).sweepInterior s .empty) s₁ = .ok s₂ ∧
      s₂.get? "a" 0 0 = some u ∧ s₂.get? "b" 0 0 = some v ∧ u + v = 2 + 3 := by
  intro c r s
  have hnames : DistinctNames c r := by
    rw [DistinctNames]
    decide
  have hC : ∀ i, (c i).HasValues s.get? fun _ => ![2, 3] i := by
    intro i x
    fin_cases i <;> simp [s, c, Store.fill, Store.get?_fillWith, Field.scalar]
  have hrate (x : Cell) : (num 5 : Expr ℝ).eval ⟨s.get?, .empty, x⟩ = .ok 5 := rfl
  have hcoefficient (i : Fin 2) (x : Cell) :
      (![num (-1), num 1] i : Expr ℝ).eval ⟨s.get?, .empty, x⟩ = .ok (![-1, 1] i) := by
    fin_cases i <;> rfl
  have horder (i : Fin 2) (x : Cell) :
      (![num 1, num 0] i : Expr ℝ).eval ⟨s.get?, .empty, x⟩ = .ok (![1, 0] i) := by
    fin_cases i <;> rfl
  obtain ⟨kernel, s₁, hkernel, hs₁, hflux, hrun⟩ := massAction_conserves two_pos hnames hC hrate
    hcoefficient horder ExactScalar.pow_one ExactScalar.pow_zero
  obtain ⟨s₂, C', hs₂, hC', hsum⟩ := hrun [1, 0] (by decide) .empty
  refine ⟨kernel, s₁, s₂, C' 0 0, C' 1 0, hkernel, hs₁, ?_, hs₂, hC' 0 0, hC' 1 0, ?_⟩
  · have hb : s₁.get? "rb" 0 0 = some (5 * (∏ l, Scalar.pow (![2, 3] l) (![1, 0] l)) * 1) :=
      hflux 1 0
    have hspeed : ∏ l, Scalar.pow (![2, 3] l) (![1, 0] l) = (2 : ℝ) := by
      rw [Fin.prod_univ_two]
      change Scalar.pow (2 : ℝ) 1 * Scalar.pow 3 0 = 2
      rw [ExactScalar.pow_one, ExactScalar.pow_zero, mul_one]
    rw [hb, hspeed]
    norm_num
  · simpa using hsum ![1, 1] (by simp) 0

end Electrokinetics
