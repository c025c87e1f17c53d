/-
**The continuity update conserves mass.**

The update of a cell adds, for every staggered direction, the flux stored at the neighbour behind it
and takes away the flux stored at the cell itself.  Over the whole domain the neighbours in one
direction are a permutation of the cells, so every stored flux is added once and taken away once,
and the total does not change.  Nothing is required of the stored fluxes or of the weight, and the
flux field may even be the field that is updated.

Main definitions:

* `FiniteVolume.updated` — the value that the update gives to a cell.

Main results:

* `FiniteVolume.evalAt_update` — the update computes `FiniteVolume.updated`;
* `FiniteVolume.sum_updated` — its sum over the domain is the old one;
* `FiniteVolume.update_conserves_total` — a sweep of the update leaves the total.
-/

import Electrokinetics.Proofs.Expr.Value
import Electrokinetics.Proofs.Grid.Region
import Electrokinetics.Proofs.Grid.Translation
import Electrokinetics.Proofs.Scalar.Real
import Electrokinetics.Proofs.Sweep.Order
import Electrokinetics.Proofs.Sweep.Totals
import Electrokinetics.Proofs.Transport.Faces

set_option relaxedAutoImplicit false
set_option autoImplicit false

namespace Electrokinetics

/-! ### The kernel of the update -/

/-- The sums of some lists of one length, added up by position or by list. -/
theorem sum_list_sum {K ι κ : Type} [AddCommMonoid K] [Fintype ι] (items : List κ)
    (f : κ → ι → K) :
    ∑ i, (items.map fun p => f p i).sum = (items.map fun p => ∑ i, f p i).sum := by
  induction items with
  | nil => simp
  | cons p items ih =>
      simp only [List.map_cons, List.sum_cons]
      rw [Finset.sum_add_distrib, ih]

variable {K : Type} [OrderedField K] [Scalar K] [ExactScalar K] {domain : Domain}

/-! ### What the update computes -/

namespace FiniteVolume

/-- The old value of a cell and the balance of its faces. -/
def updated (stencil : Stencil) (c : Cell → K) (flux : ℕ → Cell → K) (x : Cell) : K :=
  c x + (stencil.staggered.zipIdx.map fun p =>
    flux p.2 (x + -p.1.offset) - flux p.2 x).sum *
      Scalar.div Scalar.one stencil.faceArea

variable {v : FiniteVolume K} {j : Field} {stencil : Stencil} {s : Store K domain}
  {bindings : Bindings K} {c : Cell → K} {flux : ℕ → Cell → K} {kernel : Collection K}

theorem evalAt_update {fields : FieldValues K} (hc : ∀ x, fields v.field.name 0 x = some (c x))
    (hflux : ∀ k < stencil.staggered.length, ∀ x, fields j.name k x = some (flux k x))
    (hj : j.kind = .flux stencil) (hkernel : v.update j = .ok kernel) (bindings : Bindings K)
    (x : Cell) : kernel.evalAt fields bindings x =
      .ok [(v.field.centerAccess, updated stencil c flux x)] := by
  obtain rfl := Except.ok.inj ((update_eq v hj).symm.trans hkernel)
  have hbalance : (Expr.add (faceBalance j stencil)).eval ⟨fields, bindings, x⟩ =
      .ok (stencil.staggered.zipIdx.map fun p =>
        flux p.2 (x + -p.1.offset) - flux p.2 x).sum := by
    refine Expr.eval_add_map fun p hp => ?_
    have hk : p.2 < stencil.staggered.length := by
      have hlt := List.snd_lt_of_mem_zipIdx hp
      omega
    exact Expr.eval_sub (Expr.eval_access (hflux p.2 hk _)) (Expr.eval_access_here (hflux p.2 hk x))
  refine Collection.evalAt_single ?_
  exact Expr.eval_add (Expr.eval_access_here (hc x)) (Expr.eval_mul hbalance rfl)

/-! ### Conservation -/

/-- The balances of all cells cancel. -/
theorem sum_updated (hflux : ∀ k x, flux k (domain.foldCell x) = flux k x) :
    ∑ i : Fin domain.cellCount, updated stencil c flux (domain.cellAt i.val) =
      ∑ i : Fin domain.cellCount, c (domain.cellAt i.val) := by
  -- In one direction, what all cells get from behind them is what all cells give away.
  have hface (n : Offset) (k : ℕ) :
      ∑ i : Fin domain.cellCount,
        (flux k (domain.cellAt i.val + -n) - flux k (domain.cellAt i.val)) = 0 := by
    rw [Finset.sum_sub_distrib, domain.sum_translate _ (hflux k), sub_self]
  simp only [updated]
  rw [Finset.sum_add_distrib, ← Finset.sum_mul, sum_list_sum]
  simp only [hface]
  simp

theorem get?_update (hc : ∀ x, s.get? v.field.name 0 x = some (c x))
    (hflux : ∀ k < stencil.staggered.length, ∀ x, s.get? j.name k x = some (flux k x))
    (hj : j.kind = .flux stencil) (hkernel : v.update j = .ok kernel) {s' : Store K domain}
    (hs' : kernel.sweepInterior s bindings = .ok s') {x : Cell} (hx : domain.isInterior x) :
    s'.get? v.field.name 0 x = some (updated stencil c flux x) := by
  have hcolumns : kernel.columns.Nodup := by
    obtain rfl := Except.ok.inj ((update_eq v hj).symm.trans hkernel)
    exact List.nodup_singleton _
  have heval := evalAt_update hc hflux hj hkernel bindings (domain.foldCell x)
  rw [← (domain.foldCell_eq_self_iff x).2 hx]
  refine Collection.get?_sweepInterior_of_target hcolumns hs' x heval (List.mem_singleton_self _) ?_
  rw [domain.foldCell_foldCell]
  exact congrArg domain.foldCell (Cell.add_zero x)

/-- A sweep of the continuity update over the interior succeeds and leaves the total of the updated
field, whatever fluxes are stored. -/
theorem update_conserves_total (v : FiniteVolume K) (j : Field) {stencil : Stencil}
    (hj : j.kind = .flux stencil) (s : Store K domain) (bindings : Bindings K)
    (hc : ∀ x, (s.get? v.field.name 0 x).isSome)
    (hflux : ∀ k < j.components, ∀ x, (s.get? j.name k x).isSome) :
    ∃ kernel, v.update j = .ok kernel ∧
      (∀ (pot : Field) (d z : Expr K), concentrationUpdate v.field pot j d z = .ok kernel) ∧
      ∃ s', kernel.sweepInterior s bindings = .ok s' ∧
        s'.total v.field.name 0 = s.total v.field.name 0 := by
  have hcomponents : j.components = stencil.staggered.length := by
    rw [Field.components, hj, FieldKind.components]
  obtain ⟨c, hc'⟩ := Store.exists_values hc
  -- Components beyond those of the flux are never read, and count as zero.
  let flux (k : ℕ) (x : Cell) : K := (s.get? j.name k x).getD 0
  have hflux' (k : ℕ) (hk : k < stencil.staggered.length) (x : Cell) :
      s.get? j.name k x = some (flux k x) := by
    obtain ⟨a, ha⟩ := Option.isSome_iff_exists.1 (hflux k (hcomponents ▸ hk) x)
    simp only [flux, ha, Option.getD_some]
  have hfold (k : ℕ) (x : Cell) : flux k (domain.foldCell x) = flux k x := by
    simp only [flux, s.get?_foldCell]
  have hkernel := update_eq v hj
  obtain ⟨s', hs'⟩ := Collection.exists_sweep_iff.2
    fun x (_ : x ∈ (Region.interior domain).cells) =>
      ⟨_, evalAt_update hc' hflux' hj hkernel bindings x⟩
  refine ⟨_, hkernel, fun pot d z => update_eq ⟨v.field, _⟩ hj, s', hs', ?_⟩
  have hinterior (i : Fin domain.cellCount) : domain.isInterior (domain.cellAt i.val) := by
    rw [← Region.mem_cells_interior, Region.cells_interior]
    exact List.mem_map_of_mem (List.mem_range.2 i.isLt)
  rw [Store.total_eq_sum fun i => get?_update hc' hflux' hj hkernel hs' (hinterior i),
    Store.total_eq_sum fun i => hc' (domain.cellAt i.val), sum_updated hfold]

theorem update_conserves_total_narrow :
    ∃ kernel, FiniteVolume.update ⟨.scalar "c", gradient (.num (1 : ℝ))⟩ (.flux "j" .d3q7) =
        .ok kernel ∧
      (∀ (pot : Field) (d z : Expr ℝ),
        concentrationUpdate (.scalar "c") pot (.flux "j" .d3q7) d z = .ok kernel) ∧
      let s : Store ℝ .narrow :=
        (((Store.empty.fillWith "c" 0 fun x => (x.y : ℝ)).fill "j" 0 1).fill "j" 1 2).fillWith
          "j" 2 fun x => (x.z : ℝ)
      ∃ s', kernel.sweepInterior s ∅ = .ok s' ∧ s'.total "c" 0 = s.total "c" 0 := by
  refine update_conserves_total ⟨.scalar "c", gradient (.num 1)⟩ (.flux "j" .d3q7) rfl _ ∅ ?_ ?_
  · intro x
    simp [Store.fill, Store.get?_fillWith, Field.scalar]
  · intro k hk x
    have hlt : k < 3 := hk
    obtain rfl | rfl | rfl : k = 0 ∨ k = 1 ∨ k = 2 := by omega
    all_goals simp [Store.fill, Store.get?_fillWith, Field.flux]

end FiniteVolume

end Electrokinetics
