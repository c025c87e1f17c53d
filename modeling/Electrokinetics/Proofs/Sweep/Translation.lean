/-
**Sweeps on a moved store.**

On a periodic domain no cell is marked out: moving all values by an offset is a symmetry.  A kernel
that does not look at coordinates computes at the moved cell, from the moved store, what it computed
at the cell before, and writes it the same distance away.  A cell near a boundary is moved to one that
need not be, so this says that reads, writes and the numbering of the cells treat the two alike.

Main definitions:

* `Store.translate` — the store with all values moved by an offset.

Main results:

* `Store.get?_translate`, `Store.get?_translate_moved` — the values of a moved store;
* `Collection.evalAt_translate_eq_ok_iff` — what a kernel writes at a moved cell;
* `Collection.sweepInterior_translate` — a sweep of a moved store leaves the moved result.
-/

import Electrokinetics.Proofs.Sweep.Order

set_option relaxedAutoImplicit false
set_option autoImplicit false

namespace Electrokinetics

/-! ### A moved store -/

namespace Store

variable {K : Type} {domain : Domain}

/-- The store with all values moved by an offset, those that leave the domain on one side coming back
on the other. -/
def translate (t : Offset) (s : Store K domain) : Store K domain :=
  ⟨s.columns.map fun _ column => Vector.ofFn fun i => column[domain.shiftIndex (-t) i]⟩

theorem get?_translate (t : Offset) (s : Store K domain) (field : String) (component : ℕ)
    (x : Cell) : (s.translate t).get? field component x = s.get? field component (x + -t) := by
  simp only [get?, translate, Std.HashMap.getElem?_map, Option.map_map]
  congr 1
  funext column
  simp [domain.shiftIndex_index]

/-- What is seen from a moved cell in the moved store was seen from the cell before. -/
theorem get?_translate_moved (t : Offset) (s : Store K domain) (field : String) (component : ℕ)
    (y : Cell) (n : Offset) :
    (s.translate t).get? field component (domain.foldCell (y + t) + n) =
      s.get? field component (y + n) := by
  have hfold : domain.foldCell (domain.foldCell (y + t) + n + -t) = domain.foldCell (y + n) := by
    rw [domain.foldCell_add_congr (domain.foldCell_foldCell_add (y + t) n), Cell.add_right_comm y,
      Cell.add_neg_cancel_right]
  rw [get?_translate, ← s.get?_foldCell, hfold, s.get?_foldCell]

end Store

namespace Collection

variable {K : Type} [Scalar K] {domain : Domain} {kernel : Collection K} {s s₁ s₂ : Store K domain}
  {b : Bindings K} {t : Offset} {y : Cell}

/-! ### A kernel at a moved cell -/

theorem keeps_evalAt_of_fields (hcounter : ∀ e ∈ kernel.values, e.hasCounter = false)
    {fields fields' : FieldValues K} {x : Cell}
    (h : ∀ field component n, fields' field component (y + n) = fields field component (x + n)) :
    Keeps (kernel.evalAt fields b x) (kernel.evalAt fields' b y) :=
  related_evalAt composable_keeps fun e he _ _ => Expr.keeps_eval_of_fields (hcounter e he) h

theorem evalAt_translate_eq_ok_iff (hcounter : ∀ e ∈ kernel.values, e.hasCounter = false)
    {here : List (Access × K)} :
    kernel.evalAt (s.translate t).get? b (domain.foldCell (y + t)) = .ok here ↔
      kernel.evalAt s.get? b y = .ok here := by
  constructor
  · exact keeps_evalAt_of_fields hcounter
      (fun _ _ _ => (Store.get?_translate_moved t s _ _ y _).symm) here
  · exact keeps_evalAt_of_fields hcounter
      (fun _ _ _ => Store.get?_translate_moved t s _ _ y _) here

/-! ### A sweep of a moved store -/

theorem exists_sweepInterior_translate (hcounter : ∀ e ∈ kernel.values, e.hasCounter = false) :
    (∃ s', kernel.sweepInterior (s.translate t) b = .ok s') ↔
      ∃ s', kernel.sweepInterior s b = .ok s' := by
  rw [sweepInterior, sweepInterior, exists_sweep_iff, exists_sweep_iff]
  constructor
  · intro h y _
    obtain ⟨here, hhere⟩ := h _ (Region.foldCell_mem_interior domain (y + t))
    exact ⟨here, (evalAt_translate_eq_ok_iff hcounter).1 hhere⟩
  · intro h x hx
    obtain ⟨here, hhere⟩ := h _ (Region.foldCell_mem_interior domain (x + -t))
    -- Every interior cell is where some interior cell is moved.
    have hmoved : domain.foldCell (domain.foldCell (x + -t) + t) = x := by
      rw [domain.foldCell_foldCell_add, Cell.add_neg_add, Region.foldCell_of_mem_interior hx]
    rw [← hmoved]
    exact ⟨here, (evalAt_translate_eq_ok_iff hcounter).2 hhere⟩

theorem equiv_translate (hcounter : ∀ e ∈ kernel.values, e.hasCounter = false)
    (hcolumns : kernel.columns.Nodup) (h₁ : kernel.sweepInterior s b = .ok s₁)
    (h₂ : kernel.sweepInterior (s.translate t) b = .ok s₂) : s₂.Equiv (s₁.translate t) := by
  rw [Store.equiv_iff]
  intro field component x
  rw [Store.get?_translate]
  by_cases hcolumn : (field, component) ∈ kernel.columns
  · obtain ⟨a, ha, hplace⟩ := List.mem_map.1 hcolumn
    obtain ⟨rfl, rfl⟩ := Prod.mk.inj hplace
    -- A sweep over the interior writes every value of the column, this one at the cell `y`.
    obtain ⟨y, hy⟩ : ∃ y, y + a.offset = x + -t := ⟨x + -t + -a.offset, Cell.add_neg_add _ _⟩
    have hmoved : domain.foldCell (domain.foldCell y + t + a.offset) = domain.foldCell x := by
      rw [Cell.add_right_comm, domain.foldCell_add_congr (domain.foldCell_foldCell_add y a.offset),
        hy, Cell.add_neg_add]
    obtain ⟨here, hhere⟩ := exists_sweep_iff.1 ⟨s₁, h₁⟩ _ (Region.foldCell_mem_interior domain y)
    obtain ⟨v, hv⟩ := exists_value_of_mem_targets hhere ha
    rw [get?_sweepInterior_of_target hcolumns h₁ y hhere hv (congrArg domain.foldCell hy)]
    exact get?_sweepInterior_of_target hcolumns h₂ (domain.foldCell y + t)
      ((evalAt_translate_eq_ok_iff hcounter).2 hhere) hv hmoved
  · rw [get?_sweep_of_notMem h₂ hcolumn, get?_sweep_of_notMem h₁ hcolumn, Store.get?_translate]

/-- **Sweeps are translation equivariant**: a kernel that does not look at coordinates and writes no
column twice succeeds on a moved store if it does on the store, and then leaves the moved result. -/
theorem sweepInterior_translate (kernel : Collection K)
    (hcounter : ∀ e ∈ kernel.values, e.hasCounter = false) (hcolumns : kernel.columns.Nodup)
    (s : Store K domain) (b : Bindings K) (t : Offset) :
    ((∃ s', kernel.sweepInterior (s.translate t) b = .ok s') ↔
      ∃ s', kernel.sweepInterior s b = .ok s') ∧
    ∀ s₁ s₂, kernel.sweepInterior s b = .ok s₁ →
      kernel.sweepInterior (s.translate t) b = .ok s₂ → s₂.Equiv (s₁.translate t) :=
  ⟨exists_sweepInterior_translate hcounter, fun _ _ => equiv_translate hcounter hcolumns⟩

/-- Values that are all different, moved across two boundaries. -/
theorem sweepInterior_translate_relay :
    let s : Store Float .narrow := Store.empty.fillWith "c" 0 fun x => Scalar.ofInt (x.y + 2 * x.z)
    let b : Bindings Float := .ofList [("D", 5)]
    let t : Offset := ⟨4, -1, 2⟩
    ∃ s₁ s₂ : Store Float .narrow, relay.sweepInterior s b = .ok s₁ ∧
      relay.sweepInterior (s.translate t) b = .ok s₂ ∧ s₂.Equiv (s₁.translate t) := by
  intro s b t
  have hc (x : Cell) : ∃ v, s.get? "c" 0 x = some v := by simp [s, Store.get?_fillWith]
  obtain ⟨hiff, hequiv⟩ := sweepInterior_translate relay (by decide) (by decide) s b t
  obtain ⟨s₁, h₁⟩ : ∃ s₁, relay.sweepInterior s b = .ok s₁ := by
    refine exists_sweep_iff.2 fun x _ => ?_
    obtain ⟨v, hv⟩ := hc (x + ⟨0, 0, -1⟩)
    exact ⟨_, evalAt_relay (v := 5) hv rfl⟩
  obtain ⟨s₂, h₂⟩ := hiff.2 ⟨s₁, h₁⟩
  exact ⟨s₁, s₂, h₁, h₂, hequiv s₁ s₂ h₁ h₂⟩

end Collection

end Electrokinetics
