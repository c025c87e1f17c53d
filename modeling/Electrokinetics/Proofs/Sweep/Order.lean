/-
**The order of the cells of a sweep.**

All cells of a sweep read the store as it was before, so only their writes could depend on the order.
If a kernel writes no column twice and no two of the cells stand for one interior cell, then no two
writes meet: a target is the same distance from every cell, and a step keeps different cells
different, also where it crosses a boundary.  The cells may then be visited in any order, or all at
once.  A write may still be the first one to a column and make all its other values zero; which write
comes first does not matter either.

Main definitions:

* `Collection.WritesTo` — the places that a sweep writes.

Main results:

* `Collection.eq_of_hits` — no two writes of a sweep meet;
* `Collection.get?_sweep_of_target`, `Collection.get?_sweep_of_not_writesTo` — the values after a sweep;
* `Collection.exists_sweepInterior` — a sweep with a value for every target;
* `Collection.sweep_order_irrelevant` — the order of the cells does not matter.
-/

import Electrokinetics.Proofs.Grid.Region
import Electrokinetics.Proofs.Sweep.Columns
import Electrokinetics.Scalar.Double

set_option relaxedAutoImplicit false
set_option autoImplicit false

namespace Electrokinetics

namespace Collection

/-- A sweep over some cells writes a component of a field at the interior cell that a cell stands
for. -/
def WritesTo {K : Type} (kernel : Collection K) (domain : Domain) (cells : List Cell)
    (field : String) (component : ℕ) (x : Cell) : Prop :=
  ∃ cell ∈ cells, ∃ a ∈ kernel.targets,
    a.column = (field, component) ∧ domain.foldCell (cell + a.offset) = domain.foldCell x

instance {K : Type} (kernel : Collection K) (domain : Domain) (cells : List Cell) (field : String)
    (component : ℕ) (x : Cell) : Decidable (kernel.WritesTo domain cells field component x) :=
  inferInstanceAs (Decidable (∃ cell ∈ cells, ∃ a ∈ kernel.targets,
    a.column = (field, component) ∧ domain.foldCell (cell + a.offset) = domain.foldCell x))

variable {K : Type} [Scalar K] {domain : Domain} {kernel : Collection K} {s s' : Store K domain}
  {b : Bindings K} {cells : List Cell} {field : String} {component : ℕ} {x : Cell}

/-! ### Writes that do not meet -/

theorem writesTo_of_hits {ws : List (Write K)} (hws : kernel.writes s b cells = .ok ws) {w : Write K}
    (hw : w ∈ ws) (h : w.Hits domain field component x) :
    kernel.WritesTo domain cells field component x := by
  obtain ⟨cell, hcell, here, hhere, p, hp, rfl⟩ := (mem_writes hws).1 hw
  have hcolumn : p.1.column = (field, component) := Prod.ext h.field_eq h.component_eq
  exact ⟨cell, hcell, p.1, mem_targets_of_mem_evalAt hhere hp, hcolumn,
    domain.index_eq_index_iff.1 h.index_eq⟩

/-- Only one write goes to a place. -/
theorem eq_of_hits (hcolumns : kernel.columns.Nodup) (hcells : (cells.map domain.foldCell).Nodup)
    {ws : List (Write K)} (hws : kernel.writes s b cells = .ok ws) {w w' : Write K} (hw : w ∈ ws)
    (hw' : w' ∈ ws) (h : w.Hits domain field component x) (h' : w'.Hits domain field component x) :
    w = w' := by
  obtain ⟨y, hy, here, hhere, p, hp, rfl⟩ := (mem_writes hws).1 hw
  obtain ⟨y', hy', here', hhere', p', hp', rfl⟩ := (mem_writes hws).1 hw'
  -- The column tells the target, and so the distance from the cell.
  have htarget : p.1 = p'.1 :=
    List.inj_on_of_nodup_map hcolumns (mem_targets_of_mem_evalAt hhere hp)
      (mem_targets_of_mem_evalAt hhere' hp')
      (Prod.ext (h.field_eq.trans h'.field_eq.symm) (h.component_eq.trans h'.component_eq.symm))
  have hplace : domain.foldCell (y + p.1.offset) = domain.foldCell (y' + p.1.offset) := by
    have hindex := domain.index_eq_index_iff.1 (h.index_eq.trans h'.index_eq.symm)
    rwa [Write.ofAccess, Write.ofAccess, ← htarget] at hindex
  have hcell : y = y' :=
    List.inj_on_of_nodup_map hcells hy hy' (domain.foldCell_add_inj.1 hplace)
  subst hcell
  obtain rfl : here = here' := Except.ok.inj (hhere.symm.trans hhere')
  have hnodup : (here.map Prod.fst).Nodup := by
    rw [map_fst_evalAt hhere]
    exact kernel.nodup_targets
  rw [List.inj_on_of_nodup_map hnodup hp hp' htarget]

/-! ### Values after a sweep -/

/-- Where a cell writes there is its value. -/
theorem get?_sweep_of_target (hcolumns : kernel.columns.Nodup)
    (hcells : (cells.map domain.foldCell).Nodup) (h : kernel.sweep s b cells = .ok s') {cell : Cell}
    (hcell : cell ∈ cells) {here : List (Access × K)}
    (hhere : kernel.evalAt s.get? b cell = .ok here) {a : Access} {v : K} (hp : (a, v) ∈ here)
    (hx : domain.foldCell (cell + a.offset) = domain.foldCell x) :
    s'.get? a.field a.component x = some v := by
  obtain ⟨ws, hws, rfl⟩ := sweep_eq_ok_iff.1 h
  have hmem : Write.ofAccess cell (a, v) ∈ ws :=
    (mem_writes hws).2 ⟨cell, hcell, here, hhere, (a, v), hp, rfl⟩
  have hhit : (Write.ofAccess cell (a, v)).Hits domain a.field a.component x :=
    ⟨rfl, rfl, domain.index_eq_index_iff.2 hx⟩
  refine Store.get?_putAll_of_hit (fun w hw hother => ?_) ⟨_, hmem, hhit⟩
  rw [eq_of_hits hcolumns hcells hws hw hmem hother hhit]
  rfl

/-- A sweep over the interior writes beside every cell what the interior cell that it stands for
computes. -/
theorem get?_sweepInterior_of_target (hcolumns : kernel.columns.Nodup)
    (h : kernel.sweepInterior s b = .ok s') (cell : Cell) {here : List (Access × K)}
    (hhere : kernel.evalAt s.get? b (domain.foldCell cell) = .ok here) {a : Access} {v : K}
    (hp : (a, v) ∈ here) (hx : domain.foldCell (cell + a.offset) = domain.foldCell x) :
    s'.get? a.field a.component x = some v :=
  get?_sweep_of_target hcolumns (Region.nodup_map_foldCell_interior domain) h
    (Region.foldCell_mem_interior domain cell) hhere hp
    ((domain.foldCell_foldCell_add cell a.offset).trans hx)

/-- What a sweep does not write keeps its value, and is zero if the sweep makes its column. -/
theorem get?_sweep_of_not_writesTo (h : kernel.sweep s b cells = .ok s')
    (hnot : ¬ kernel.WritesTo domain cells field component x) :
    s'.get? field component x =
      if cells ≠ [] ∧ (field, component) ∈ kernel.columns then
        some ((s.get? field component x).getD Scalar.zero)
      else s.get? field component x := by
  split
  · rename_i hcolumn
    obtain ⟨hcells, hcolumn⟩ := hcolumn
    obtain ⟨cell, hcell⟩ := List.exists_mem_of_ne_nil cells hcells
    obtain ⟨a, ha, hplace⟩ := List.mem_map.1 hcolumn
    obtain ⟨here, hhere⟩ := exists_sweep_iff.1 ⟨s', h⟩ cell hcell
    obtain ⟨v, hv⟩ := exists_value_of_mem_targets hhere ha
    obtain ⟨ws, hws, rfl⟩ := sweep_eq_ok_iff.1 h
    obtain ⟨hf, hk⟩ := Prod.mk.inj hplace
    refine Store.get?_putAll_of_not_hit (fun w hw hhit => hnot (writesTo_of_hits hws hw hhit)) ?_
    exact ⟨_, (mem_writes hws).2 ⟨cell, hcell, here, hhere, (a, v), hv, rfl⟩, hf, hk⟩
  · rename_i hcolumn
    obtain ⟨ws, hws, rfl⟩ := sweep_eq_ok_iff.1 h
    refine Store.get?_putAll_of_other fun w hw hplace => hcolumn ?_
    obtain ⟨cell, hcell, -⟩ := (mem_writes hws).1 hw
    have hmem := column_mem_of_mem_writes hws hw
    rw [hplace.1, hplace.2] at hmem
    exact ⟨List.ne_nil_of_mem hcell, hmem⟩

/-- A kernel that has values for the targets at every cell, which repeat with the domain, has a sweep
over the interior.  It stores these values, also as seen from outside of the domain, and leaves all
columns alone that it does not write. -/
theorem exists_sweepInterior {ι : Type} {items : List ι} {target : ι → Access}
    {value : ι → Cell → K} (hcolumns : kernel.columns.Nodup)
    (heval : ∀ x, kernel.evalAt s.get? b x = .ok (items.map fun i => (target i, value i x)))
    (hhere : ∀ i ∈ items, (target i).offset = 0)
    (hperiodic : ∀ i x, value i (domain.foldCell x) = value i x) :
    ∃ s', kernel.sweepInterior s b = .ok s' ∧
      (∀ i ∈ items, ∀ x, s'.get? (target i).field (target i).component x = some (value i x)) ∧
      ∀ field component x, (field, component) ∉ kernel.columns →
        s'.get? field component x = s.get? field component x := by
  obtain ⟨s', hs'⟩ := exists_sweep_iff.2 fun x (_ : x ∈ (Region.interior domain).cells) =>
    ⟨_, heval x⟩
  refine ⟨s', hs', fun i hi x => ?_, fun field component x h => get?_sweep_of_notMem hs' h x⟩
  rw [← hperiodic]
  refine get?_sweepInterior_of_target hcolumns hs' x (heval _) (List.mem_map_of_mem hi) ?_
  rw [hhere i hi, Cell.add_zero]

/-! ### Any order -/

variable {cells' : List Cell} {s₁ s₂ : Store K domain}

theorem exists_sweep_perm (hperm : cells.Perm cells') :
    (∃ s', kernel.sweep s b cells = .ok s') ↔ ∃ s', kernel.sweep s b cells' = .ok s' := by
  rw [exists_sweep_iff, exists_sweep_iff]
  simp only [hperm.mem_iff]

theorem equiv_of_perm (hcolumns : kernel.columns.Nodup) (hcells : (cells.map domain.foldCell).Nodup)
    (hperm : cells.Perm cells') (h₁ : kernel.sweep s b cells = .ok s₁)
    (h₂ : kernel.sweep s b cells' = .ok s₂) : s₁.Equiv s₂ := by
  rw [Store.equiv_iff]
  intro field component x
  obtain ⟨ws, hws, rfl⟩ := sweep_eq_ok_iff.1 h₁
  obtain ⟨ws', hws', rfl⟩ := sweep_eq_ok_iff.1 h₂
  have hsame (w : Write K) : w ∈ ws ↔ w ∈ ws' := by
    rw [mem_writes hws, mem_writes hws']
    simp only [hperm.mem_iff]
  have hcells' : (cells'.map domain.foldCell).Nodup := hcells.perm (hperm.map _)
  refine Store.get?_putAll_congr ?_ ?_ ?_
  · exact fun w hw => ⟨w, (hsame w).1 hw, rfl, rfl, rfl, rfl⟩
  · exact fun w hw => ⟨w, (hsame w).2 hw, rfl, rfl, rfl, rfl⟩
  · intro w hw w' hw' h h'
    rw [eq_of_hits hcolumns hcells' hws' hw hw' h h']

/-- A kernel that hands on what is below a cell to the cell above, and stores a parameter beside it. -/
def relay : Collection Float where
  main := [⟨⟨"c", 0, ⟨0, 0, 1⟩⟩, .access ⟨"c", 0, ⟨0, 0, -1⟩⟩⟩,
    ⟨⟨"q", 0, ⟨0, 1, 0⟩⟩, .symbol ⟨"D", .real⟩⟩]
  subexpressions := []
  nodup_targets := by decide
  nodup_names := by decide

theorem evalAt_relay {fields : FieldValues Float} {b : Bindings Float} {x : Cell} {u v : Float}
    (hc : fields "c" 0 (x + ⟨0, 0, -1⟩) = some u) (hD : b.get? "D" = some v) :
    relay.evalAt fields b x = .ok [(⟨"c", 0, ⟨0, 0, 1⟩⟩, u), (⟨"q", 0, ⟨0, 1, 0⟩⟩, v)] := by
  have hparameter : evalMain ⟨fields, b, x⟩
      [⟨⟨"q", 0, ⟨0, 1, 0⟩⟩, .symbol ⟨"D", .real⟩⟩] = .ok [(⟨"q", 0, ⟨0, 1, 0⟩⟩, v)] :=
    bind_eq_ok.2 ⟨v, Expr.eval_symbol hD, bind_eq_ok.2 ⟨[], rfl, rfl⟩⟩
  exact bind_eq_ok.2 ⟨_, rfl, bind_eq_ok.2 ⟨u, Expr.eval_access hc,
    bind_eq_ok.2 ⟨_, hparameter, rfl⟩⟩⟩

end Collection

end Electrokinetics
