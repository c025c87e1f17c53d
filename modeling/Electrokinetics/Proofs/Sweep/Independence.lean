/-
**Sweeps that do not meet.**

Two kernels are independent if neither writes a column that the other one reads or writes.  Each of
them then finds the same values whether the other one ran before or not, so both runs perform the same
writes, and writes to different columns may be performed in either order.  The two sweeps may visit
different cells with different parameters, and either of them may make columns that were not there.

Main definitions:

* `Collection.Independent` — kernels that do not meet;
* `Collection.sweepThen` — one sweep after another.

Main results:

* `Collection.writes_congr_store` — a sweep depends on the columns that its kernel reads;
* `Collection.sweepThen_eq_ok_iff` — what two independent sweeps write;
* `Collection.sweeps_commute` — their order does not matter.
-/

import Electrokinetics.Proofs.Sweep.Order

set_option relaxedAutoImplicit false
set_option autoImplicit false

namespace Electrokinetics

namespace Collection

section

variable {K : Type}

/-- Neither of two kernels writes a column that the other one reads or writes. -/
structure Independent (A B : Collection K) : Prop where
  writes : ∀ column ∈ A.columns, column ∉ B.columns
  left_reads : ∀ column ∈ B.columns, column ∉ A.reads.map Access.column
  right_reads : ∀ column ∈ A.columns, column ∉ B.reads.map Access.column

theorem Independent.symm {A B : Collection K} (h : A.Independent B) : B.Independent A :=
  ⟨fun column hB hA => h.writes column hA hB, h.right_reads, h.left_reads⟩

end

variable {K : Type} [Scalar K] {domain : Domain}

/-- Runs one kernel and then another one on the store that the first leaves. -/
def sweepThen (A B : Collection K) (s : Store K domain) (b b' : Bindings K)
    (cells cells' : List Cell) : Except (EvalError K) (Store K domain) := do
  let between ← A.sweep s b cells
  B.sweep between b' cells'

variable {A B : Collection K} {s s₁ s₂ t : Store K domain} {b b' : Bindings K}
  {cells cells' : List Cell}

/-! ### What the second sweep finds -/

/-- A sweep performs the same writes on stores that agree at what its kernel reads. -/
theorem writes_congr_store (h : ∀ r ∈ A.reads, ∀ x,
    s.get? r.field r.component x = t.get? r.field r.component x) :
    A.writes s b cells = A.writes t b cells := by
  induction cells with
  | nil => rfl
  | cons cell cells ih =>
      have hhere : A.evalAt s.get? b cell = A.evalAt t.get? b cell :=
        evalAt_congr_reads fun r hr => h r hr _
      rw [writes, writes, hhere, ih]

theorem writes_after_sweep (h : A.Independent B) (hsweep : A.sweep s b cells = .ok t) :
    B.writes t b' cells' = B.writes s b' cells' := by
  refine writes_congr_store fun r hr x => get?_sweep_of_notMem hsweep (fun hcolumn => ?_) x
  exact h.right_reads _ hcolumn (List.mem_map_of_mem hr)

/-- Two independent sweeps perform the writes that each of them has on the store before both. -/
theorem sweepThen_eq_ok_iff (h : A.Independent B) :
    A.sweepThen B s b b' cells cells' = .ok s₁ ↔
      ∃ ws ws', A.writes s b cells = .ok ws ∧ B.writes s b' cells' = .ok ws' ∧
        (s.putAll ws).putAll ws' = s₁ := by
  constructor
  · intro hboth
    obtain ⟨t, ht, hsecond⟩ := bind_eq_ok.1 hboth
    obtain ⟨ws', hws', rfl⟩ := sweep_eq_ok_iff.1 hsecond
    rw [writes_after_sweep h ht] at hws'
    obtain ⟨ws, hws, rfl⟩ := sweep_eq_ok_iff.1 ht
    exact ⟨ws, ws', hws, hws', rfl⟩
  · rintro ⟨ws, ws', hws, hws', rfl⟩
    have ht : A.sweep s b cells = .ok (s.putAll ws) := sweep_eq_ok_iff.2 ⟨ws, hws, rfl⟩
    rw [← writes_after_sweep h ht] at hws'
    exact bind_eq_ok.2 ⟨_, ht, sweep_eq_ok_iff.2 ⟨ws', hws', rfl⟩⟩

/-! ### Either order -/

theorem equiv_putAll_comm (h : A.Independent B) {ws ws' : List (Write K)}
    (hws : A.writes s b cells = .ok ws) (hws' : B.writes s b' cells' = .ok ws') :
    ((s.putAll ws).putAll ws').Equiv ((s.putAll ws').putAll ws) := by
  rw [Store.equiv_iff]
  intro field component x
  by_cases hA : (field, component) ∈ A.columns
  · have hB := h.writes _ hA
    rw [get?_putAll_of_notMem hws' hB]
    exact (Store.get?_putAll_congr_store (get?_putAll_of_notMem hws' hB) ws x).symm
  · rw [get?_putAll_of_notMem hws hA]
    exact Store.get?_putAll_congr_store (get?_putAll_of_notMem hws hA) ws' x

/-- **Independent sweeps commute**: of two kernels that do not meet, one can run after the other
exactly if the other can run after the one, and both orders leave the same store. -/
theorem sweeps_commute {A B : Collection K} (h : A.Independent B) (s : Store K domain)
    (b b' : Bindings K) (cells cells' : List Cell) :
    ((∃ s', A.sweepThen B s b b' cells cells' = .ok s') ↔
      ∃ s', B.sweepThen A s b' b cells' cells = .ok s') ∧
    ∀ s₁ s₂, A.sweepThen B s b b' cells cells' = .ok s₁ →
      B.sweepThen A s b' b cells' cells = .ok s₂ → s₁.Equiv s₂ := by
  constructor
  · constructor
    · rintro ⟨s', hs'⟩
      obtain ⟨ws, ws', hws, hws', -⟩ := (sweepThen_eq_ok_iff h).1 hs'
      exact ⟨_, (sweepThen_eq_ok_iff h.symm).2 ⟨ws', ws, hws', hws, rfl⟩⟩
    · rintro ⟨s', hs'⟩
      obtain ⟨ws', ws, hws', hws, -⟩ := (sweepThen_eq_ok_iff h.symm).1 hs'
      exact ⟨_, (sweepThen_eq_ok_iff h).2 ⟨ws, ws', hws, hws', rfl⟩⟩
  · intro s₁ s₂ h₁ h₂
    obtain ⟨ws, ws', hws, hws', rfl⟩ := (sweepThen_eq_ok_iff h).1 h₁
    obtain ⟨us', us, hus', hus, rfl⟩ := (sweepThen_eq_ok_iff h.symm).1 h₂
    obtain rfl : us = ws := Except.ok.inj (hus.symm.trans hws)
    obtain rfl : us' = ws' := Except.ok.inj (hus'.symm.trans hws')
    exact equiv_putAll_comm h hws hws'

/-- A kernel that spreads a potential to the neighbour behind a cell. -/
def spread : Collection Float :=
  .single ⟨⟨"r", 1, ⟨-1, 0, 0⟩⟩, .access ⟨"phi", 0, ⟨0, 1, 0⟩⟩⟩

theorem evalAt_spread {fields : FieldValues Float} {b : Bindings Float} {x : Cell} {v : Float}
    (h : fields "phi" 0 (x + ⟨0, 1, 0⟩) = some v) :
    spread.evalAt fields b x = .ok [(⟨"r", 1, ⟨-1, 0, 0⟩⟩, v)] :=
  evalAt_single (Expr.eval_access h)

/-- Two kernels on different cells, both of which make a column. -/
theorem sweeps_commute_relay :
    let s : Store Float .narrow := (Store.empty.fill "c" 0 1).fill "phi" 0 2
    let b : Bindings Float := .ofList [("D", 5)]
    ∃ s₁ s₂ : Store Float .narrow,
      relay.sweepThen spread s b ∅ [⟨0, 0, 0⟩, ⟨0, 2, 0⟩] [⟨4, 1, -1⟩] = .ok s₁ ∧
        spread.sweepThen relay s ∅ b [⟨4, 1, -1⟩] [⟨0, 0, 0⟩, ⟨0, 2, 0⟩] = .ok s₂ ∧ s₁.Equiv s₂ := by
  intro s b
  have hindependent : relay.Independent spread := ⟨by decide, by decide, by decide⟩
  have hc (x : Cell) : s.get? "c" 0 x = some 1 := by
    simp [s, Store.fill, Store.get?_fillWith]
  have hphi (x : Cell) : s.get? "phi" 0 x = some 2 := by
    simp [s, Store.fill, Store.get?_fillWith]
  have hrelay (cells : List Cell) : ∃ ws, relay.writes s b cells = .ok ws :=
    exists_writes_iff.2 fun x _ => ⟨_, evalAt_relay (v := 5) (hc _) rfl⟩
  have hspread (cells : List Cell) : ∃ ws, spread.writes s ∅ cells = .ok ws :=
    exists_writes_iff.2 fun x _ => ⟨_, evalAt_spread (hphi _)⟩
  obtain ⟨hiff, hequiv⟩ := sweeps_commute hindependent s b ∅ [⟨0, 0, 0⟩, ⟨0, 2, 0⟩] [⟨4, 1, -1⟩]
  obtain ⟨ws, hws⟩ := hrelay [⟨0, 0, 0⟩, ⟨0, 2, 0⟩]
  obtain ⟨ws', hws'⟩ := hspread [⟨4, 1, -1⟩]
  have h₁ := (sweepThen_eq_ok_iff hindependent).2 ⟨ws, ws', hws, hws', rfl⟩
  obtain ⟨s₂, h₂⟩ := hiff.1 ⟨_, h₁⟩
  exact ⟨_, s₂, h₁, h₂, hequiv _ s₂ h₁ h₂⟩

end Collection

end Electrokinetics
