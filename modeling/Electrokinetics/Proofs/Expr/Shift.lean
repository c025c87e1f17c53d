/-
**Shifting.**

A shifted tree reads everything further along by one offset.  Translations of offsets are injective, so
shifting a canonical tree is the relabelling of its reads: no node is dropped or joined, whatever the
offset is, and shifts add up.  A tree that holds no coordinate of the cell cannot tell a shift from a
move of the cell itself.

Main results:

* `Expr.shift_eq_relabel` — shifting is relabelling;
* `Expr.shift_zero`, `Expr.shift_shift` — shifts act as offsets add;
* `Expr.eval_shift_eq` — a shift for a move of the cell;
* `Expr.shift_acts_as_translation` — all of these together.
-/

import Electrokinetics.Proofs.Expr.Relabelling
import Electrokinetics.Proofs.Grid.Translation

set_option relaxedAutoImplicit false
set_option autoImplicit false

namespace Electrokinetics

namespace Access

theorem shift_zero (a : Access) : a.shift 0 = a := by
  rw [shift, Cell.add_zero]

theorem shift_shift (m n : Offset) (a : Access) : (a.shift m).shift n = a.shift (m + n) := by
  rw [shift, shift, shift, Cell.add_assoc]

/-- Shifting back undoes a shift, so different reads stay different. -/
theorem shift_injective (n : Offset) : Function.Injective (Access.shift n) := by
  refine Function.LeftInverse.injective (g := Access.shift (-n)) fun a => ?_
  rw [shift, shift, Cell.add_neg_cancel_right]

end Access

namespace Expr

variable {K : Type} [Scalar K]

section Shape

variable [NeutralScalar K] {e : Expr K}

/-- Shifting a canonical tree translates the offsets of its reads and does nothing else. -/
theorem shift_eq_relabel (h : e.Canonical) (n : Offset) : e.shift n = e.relabel (Access.shift n) :=
  mapAccesses_eq_relabel (Access.shift_injective n) h

theorem canonical_shift (h : e.Canonical) (n : Offset) : (e.shift n).Canonical := by
  rw [shift_eq_relabel h]
  exact canonical_relabel (Access.shift_injective n) h

theorem shift_zero (h : e.Canonical) : e.shift 0 = e := by
  have hid : Access.shift 0 = id := funext Access.shift_zero
  rw [shift_eq_relabel h, hid, relabel_id]

theorem shift_shift (h : e.Canonical) (m n : Offset) : (e.shift m).shift n = e.shift (m + n) := by
  have hcomp : Access.shift n ∘ Access.shift m = Access.shift (m + n) :=
    funext (Access.shift_shift m n)
  rw [shift_eq_relabel (canonical_shift h m), shift_eq_relabel h, shift_eq_relabel h,
    relabel_relabel, hcomp]

end Shape

variable {e : Expr K} {fields : FieldValues K} {bindings : Bindings K} {x : Cell} {n : Offset}

/-- A shifted read looks at the cell, and names the cell if it has no value, that the read looks at
from further along. -/
theorem eval_access_shift (a : Access) :
    (access (a.shift n) : Expr K).eval ⟨fields, bindings, x⟩ =
      (access a).eval ⟨fields, bindings, x + n⟩ := by
  have hcell : x + (a.offset + n) = x + n + a.offset := by
    rw [Cell.add_right_comm, Cell.add_assoc]
  simp only [eval, Access.shift, hcell]

theorem all_relabelsAt_shift (hcounter : e.hasCounter = false) :
    e.All (RelabelsAt (Access.shift n) ⟨fields, bindings, x⟩ ⟨fields, bindings, x + n⟩) := by
  intro t ht hlookup
  cases t with
  | symbol s => rfl
  | access a => exact eval_access_shift a
  | counter axis => exact absurd ht (counter_notMem_subterms hcounter axis)
  | _ => cases hlookup

/-- Without coordinates of the cell, shifting a tree is moving the cell, faults included. -/
theorem eval_shift_eq [NeutralScalar K] (h : e.Canonical) (hcounter : e.hasCounter = false) :
    (e.shift n).eval ⟨fields, bindings, x⟩ = e.eval ⟨fields, bindings, x + n⟩ := by
  rw [shift_eq_relabel h]
  exact eval_relabel (all_relabelsAt_shift hcounter)

/-- **Shifts act as translations**: shifting a canonical tree gives the same tree with the offsets of
its reads translated, no shift changes nothing, and shifts one after the other add up.  A shifted tree
without coordinates of the cell has at a cell the result, value or fault, that the tree has there moved
by the offset. -/
theorem shift_acts_as_translation [NeutralScalar K] (e : Expr K) (h : e.Canonical) :
    (∀ n, e.shift n = e.relabel (Access.shift n)) ∧
    e.shift 0 = e ∧
    (∀ m n, (e.shift m).shift n = e.shift (m + n)) ∧
    (e.hasCounter = false → ∀ n fields bindings x,
      (e.shift n).eval ⟨fields, bindings, x⟩ = e.eval ⟨fields, bindings, x + n⟩) :=
  ⟨shift_eq_relabel h, shift_zero h, shift_shift h,
    fun hcounter _ _ _ _ => eval_shift_eq h hcounter⟩

/-- A case distinction between two reads of a field that any source lacks: shifted along `x` and back
it is the same tree, and shifted it fails for the cell one further along. -/
theorem shift_acts_as_translation_select :
    let right : Offset := ⟨1, 0, 0⟩
    let e : Expr Float := .select (.greater (.access ⟨"c", 0, 0⟩) (.real "limit"))
      (.access ⟨"c", 0, 0⟩) (.access ⟨"c", 0, right⟩)
    (e.shift right).shift (-right) = e.shift 0 ∧ e.shift 0 = e ∧
    (e.shift right).eval (.ofFields fun _ _ _ => none) =
      .error (.missingValue "c" 0 right) := by
  intro right e
  have hdiffer : same (access ⟨"c", 0, 0⟩) (access ⟨"c", 0, right⟩ : Expr Float) = false := by
    rw [same]
    decide
  have he : e.Canonical :=
    all_select.2 ⟨⟨rfl, rfl, hdiffer⟩, Cond.all_greater.2 ⟨all_access.2 trivial,
      all_symbol.2 trivial⟩, all_access.2 trivial, all_access.2 trivial⟩
  obtain ⟨-, hzero, hadd, heval⟩ := shift_acts_as_translation e he
  refine ⟨hadd right (-right), hzero, ?_⟩
  exact heval rfl right _ _ _

end Expr

end Electrokinetics
