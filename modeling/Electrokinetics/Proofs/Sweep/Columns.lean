/-
**The columns that a sweep touches.**

A store keeps its values in columns, one for each component of a field.  What a write leaves in a
column depends on nothing but that column, and a kernel writes the columns of its targets and no
others.  So a sweep is known column by column: those of the targets are made of what they held and of
the writes, and all others are what they were.

Main definitions:

* `Access.column`, `Collection.columns` — the column of an access, and those that a kernel writes;
* `Store.Equiv` — stores with the same columns.

Main results:

* `Store.equiv_iff` — the columns are the same if all values are;
* `Store.get?_putAll_congr_store` — writes see only the column that they change;
* `Collection.column_mem_of_mem_writes`, `Collection.get?_sweep_of_notMem` — what is written, and what
  is left alone.
-/

import Electrokinetics.Proofs.Sweep.Writes

set_option relaxedAutoImplicit false
set_option autoImplicit false

namespace Electrokinetics

/-- The column that holds the values of a component of a field. -/
def Access.column (a : Access) : String × ℕ := (a.field, a.component)

section

variable {K : Type}

/-- The columns that a kernel writes, in the order of its targets. -/
def Collection.columns (c : Collection K) : List (String × ℕ) := c.targets.map Access.column

/-- Two stores hold the same columns. -/
def Store.Equiv {domain : Domain} (s t : Store K domain) : Prop := s.columns.Equiv t.columns

end

/-! ### Stores with the same columns -/

namespace Store

variable {K : Type} {domain : Domain} {s t : Store K domain}

/-- A domain has a cell, so a column is there if its values are. -/
theorem column_eq_of_get?_eq {field : String} {component : ℕ}
    (h : ∀ x, s.get? field component x = t.get? field component x) :
    s.columns[(field, component)]? = t.columns[(field, component)]? := by
  have hpos : 0 < domain.cellCount := Shape.count_pos domain.pos
  have hget (i : Fin domain.cellCount) := h (domain.cellAt i.val)
  simp only [get?, domain.index_cellAt] at hget
  cases hs : s.columns[(field, component)]? with
  | none =>
      cases ht : t.columns[(field, component)]? with
      | none => rfl
      | some column => simpa [hs, ht] using hget ⟨0, hpos⟩
  | some column =>
      cases ht : t.columns[(field, component)]? with
      | none => simpa [hs, ht] using hget ⟨0, hpos⟩
      | some other =>
          have hvalues : column = other := by
            refine Vector.ext fun i hi => ?_
            simpa [hs, ht] using hget ⟨i, hi⟩
          rw [hvalues]

/-- Stores hold the same columns exactly if they hold the same values at every cell. -/
theorem equiv_iff : s.Equiv t ↔ ∀ field component x, s.get? field component x =
    t.get? field component x := by
  constructor
  · intro h field component x
    rw [get?, get?, Std.HashMap.Equiv.getElem?_eq h]
  · intro h
    exact Std.HashMap.Equiv.of_forall_getElem?_eq fun key =>
      column_eq_of_get?_eq (h key.1 key.2)

end Store

/-! ### Writes to a column -/

variable {K : Type} [Scalar K] {domain : Domain} {s s' t : Store K domain} {field : String}
  {component : ℕ}

namespace Store

/-- What a write leaves in a column depends on the column alone. -/
theorem get?_put_congr_store (h : ∀ x, s.get? field component x = t.get? field component x)
    (w : Write K) (x : Cell) :
    (s.put w).get? field component x = (t.put w).get? field component x := by
  by_cases hcolumn : w.field = field ∧ w.component = component
  · by_cases hhit : w.Hits domain field component x
    · rw [get?_put_of_hit hhit, get?_put_of_hit hhit]
    · rw [get?_put_of_not_hit hcolumn.1 hcolumn.2 hhit,
        get?_put_of_not_hit hcolumn.1 hcolumn.2 hhit, h]
  · rw [get?_put_of_other hcolumn, get?_put_of_other hcolumn, h]

theorem get?_putAll_congr_store (h : ∀ x, s.get? field component x = t.get? field component x)
    (ws : List (Write K)) (x : Cell) :
    (s.putAll ws).get? field component x = (t.putAll ws).get? field component x := by
  induction ws generalizing s t with
  | nil => exact h x
  | cons w ws ih =>
      rw [putAll_cons, putAll_cons]
      exact ih (get?_put_congr_store h w)

end Store

/-! ### The columns of a kernel -/

namespace Collection

variable {kernel : Collection K} {b : Bindings K} {cells : List Cell}

theorem column_mem_of_mem_writes {ws : List (Write K)} (h : kernel.writes s b cells = .ok ws)
    {w : Write K} (hw : w ∈ ws) : (w.field, w.component) ∈ kernel.columns := by
  obtain ⟨cell, -, here, hhere, p, hp, rfl⟩ := (mem_writes h).1 hw
  exact List.mem_map_of_mem (mem_targets_of_mem_evalAt hhere hp)

/-- Writes leave the columns alone that the kernel does not write. -/
theorem get?_putAll_of_notMem {before : Store K domain} {ws : List (Write K)}
    (h : kernel.writes before b cells = .ok ws) (hcolumn : (field, component) ∉ kernel.columns)
    (x : Cell) : (s.putAll ws).get? field component x = s.get? field component x := by
  refine Store.get?_putAll_of_other fun w hw hplace => hcolumn ?_
  have hmem := column_mem_of_mem_writes h hw
  rwa [hplace.1, hplace.2] at hmem

/-- A sweep leaves the columns alone that the kernel does not write. -/
theorem get?_sweep_of_notMem (h : kernel.sweep s b cells = .ok s')
    (hcolumn : (field, component) ∉ kernel.columns) (x : Cell) :
    s'.get? field component x = s.get? field component x := by
  obtain ⟨ws, hws, rfl⟩ := sweep_eq_ok_iff.1 h
  exact get?_putAll_of_notMem hws hcolumn x

end Collection

end Electrokinetics
