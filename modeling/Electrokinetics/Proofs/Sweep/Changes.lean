/-
**A store as a map on interior cells.**

Whatever is done to a store, what it holds is a map whose keys are a field, a component and an interior
cell, and a read anywhere looks up the interior cell that the place stands for.  A store keeps the
values of a component in a column, and two rules say where the value of a cell stands: a component that
is filled is listed in the order of a sweep, and a value that is read or set is found by a number
computed from the coordinates.  This module follows both rules on plain lists, where no type says how
long a column is, and shows that they meet and that no number is beyond the end of a column.

Main definitions:

* `Change` — the changes of a store, with `Store.change` and `Store.changeAll`;
* `CellMap` — maps on interior cells, with `CellMap.change` and `CellMap.changeAll`;
* `PlainColumns` — columns without a length, with `PlainColumns.change?` and
  `PlainColumns.changeAll?`, which fail where a number is beyond the end of a column.

Main results:

* `Store.get?_change`, `Store.get?_changeAll` — a store follows the map of its values;
* `Store.change?_plain`, `Store.changeAll?_plain` — plain columns never fail and hold the same;
* `Store.changeAll_refines_cellMap` — all of this together.
-/

import Electrokinetics.Proofs.Scalar.Real
import Electrokinetics.Proofs.Sweep.Totals
import Mathlib.Logic.Function.Basic

set_option relaxedAutoImplicit false
set_option autoImplicit false

namespace Electrokinetics

/-! ### Changes -/

/-- A change of a store. -/
inductive Change (K : Type) where
  /-- Every value of a component is set from its cell. -/
  | fillWith (field : String) (component : ℕ) (f : Cell → K)
  /-- Every value of a component is set to one value. -/
  | fill (field : String) (component : ℕ) (value : K)
  /-- One value of a component is set. -/
  | set (field : String) (component : ℕ) (cell : Cell) (value : K)

namespace Change

variable {K : Type}

/-- The field and component that a change is about. -/
def column : Change K → String × ℕ
  | fillWith field component _ => (field, component)
  | fill field component _ => (field, component)
  | set field component _ _ => (field, component)

/-- The value that a change gives to an interior cell of its component, from the value that the cell
had.  Only one cell is set by `Change.set`: the others keep their values, and without one they get
zero. -/
def valueAt [Scalar K] (domain : Domain) (x : Cell) (old? : Option K) : Change K → K
  | fillWith _ _ f => f x
  | fill _ _ value => value
  | set _ _ cell value => if x = domain.foldCell cell then value else old?.getD Scalar.zero

end Change

variable {K : Type} [Scalar K] {domain : Domain}

namespace Store

/-- The store after a change. -/
def change (s : Store K domain) : Change K → Store K domain
  | .fillWith field component f => s.fillWith field component f
  | .fill field component value => s.fill field component value
  | .set field component cell value => s.set field component cell value

/-- The store after some changes, one after the other. -/
def changeAll (s : Store K domain) (changes : List (Change K)) : Store K domain :=
  changes.foldl change s

end Store

/-! ### The map of the values -/

/-- Values by field, component and interior cell. -/
abbrev CellMap (K : Type) := String → ℕ → Cell → Option K

namespace CellMap

variable {m : CellMap K} {field : String} {component : ℕ} {x : Cell}

/-- The map without values. -/
def empty : CellMap K := fun _ _ _ => none

/-- The map after a change. -/
def change (domain : Domain) (m : CellMap K) (c : Change K) : CellMap K :=
  fun field component x =>
    if c.column = (field, component) then some (c.valueAt domain x (m field component x))
    else m field component x

/-- The map after some changes, one after the other. -/
def changeAll (domain : Domain) (m : CellMap K) (changes : List (Change K)) : CellMap K :=
  changes.foldl (change domain) m

theorem change_eq_none_iff {c : Change K} : m.change domain c field component x = none ↔
    c.column ≠ (field, component) ∧ m field component x = none := by
  unfold change
  split <;> simp [*]

/-- A component has values exactly if some change was about it. -/
theorem changeAll_eq_none_iff {changes : List (Change K)} :
    m.changeAll domain changes field component x = none ↔
      (∀ c ∈ changes, c.column ≠ (field, component)) ∧ m field component x = none := by
  induction changes generalizing m with
  | nil => simp [changeAll]
  | cons c changes ih =>
      have hstep : m.changeAll domain (c :: changes) = (m.change domain c).changeAll domain changes :=
        rfl
      rw [hstep, ih, change_eq_none_iff, List.forall_mem_cons]
      tauto

end CellMap

namespace Store

theorem get?_change (s : Store K domain) (c : Change K) (field : String) (component : ℕ)
    (x : Cell) : (s.change c).get? field component x =
      if c.column = (field, component) then
        some (c.valueAt domain (domain.foldCell x) (s.get? field component x))
      else s.get? field component x := by
  cases c with
  | fillWith other k f =>
      simp only [change, get?_fillWith, Change.column, Change.valueAt, Prod.mk.injEq]
  | fill other k value =>
      simp only [change, fill, get?_fillWith, Change.column, Change.valueAt, Prod.mk.injEq]
  | set other k cell value =>
      simp only [change, get?_set, Change.column, Change.valueAt, Prod.mk.injEq,
        domain.index_eq_index_iff]
      by_cases hcolumn : other = field ∧ k = component
      · obtain ⟨rfl, rfl⟩ := hcolumn
        simp only [and_self, if_true]
        split <;> rfl
      · simp only [hcolumn, if_false]

/-- A store whose values are those of a map follows the map through all changes. -/
theorem get?_changeAll {s : Store K domain} {m : CellMap K}
    (h : ∀ field component x, s.get? field component x = m field component (domain.foldCell x))
    (changes : List (Change K)) (field : String) (component : ℕ) (x : Cell) :
    (s.changeAll changes).get? field component x =
      m.changeAll domain changes field component (domain.foldCell x) := by
  induction changes generalizing s m with
  | nil => exact h field component x
  | cons c changes ih =>
      refine ih fun other k y => ?_
      rw [get?_change, h, CellMap.change]

end Store

/-! ### Columns without a length -/

/-- The values of each component that has some, in a list of any length. -/
abbrev PlainColumns (K : Type) := String × ℕ → Option (List K)

/-- The number that the value of a cell is found by. -/
def Domain.place (d : Domain) (cell : Cell) : ℕ := d.extent.flatten (d.position cell)

theorem Domain.place_lt (d : Domain) (cell : Cell) : d.place cell < d.cellCount :=
  Shape.flatten_lt (d.position_lt cell)

namespace PlainColumns

/-- No columns. -/
def empty : PlainColumns K := fun _ => none

/-- The columns after a change.  Filling lists the values in the order of a sweep.  Setting fails if
the number of the cell is beyond the end of its column. -/
def change? (domain : Domain) (columns : PlainColumns K) : Change K → Option (PlainColumns K)
  | .fillWith field component f =>
    some (Function.update columns (field, component) ((Region.interior domain).cells.map f))
  | .fill field component value =>
    some (Function.update columns (field, component)
      ((Region.interior domain).cells.map fun _ => value))
  | .set field component cell value =>
    let column := (columns (field, component)).getD (List.replicate domain.cellCount Scalar.zero)
    if domain.place cell < column.length then
      some (Function.update columns (field, component) (column.set (domain.place cell) value))
    else none

/-- The columns after some changes, one after the other. -/
def changeAll? (domain : Domain) (columns : PlainColumns K) (changes : List (Change K)) :
    Option (PlainColumns K) :=
  changes.foldlM (change? domain) columns

end PlainColumns

namespace Store

/-- The columns of a store without their lengths. -/
def plain (s : Store K domain) : PlainColumns K := fun key => s.columns[key]?.map Vector.toList

omit [Scalar K] in
theorem plain_fillWith (s : Store K domain) (field : String) (component : ℕ) (f : Cell → K) :
    (s.fillWith field component f).plain =
      Function.update s.plain (field, component) ((Region.interior domain).cells.map f) := by
  funext key
  rw [plain, fillWith, Std.HashMap.getElem?_insert, Function.update_apply, ← toList_ofFn_cellAt]
  by_cases hkey : key = (field, component)
  · simp [hkey]
  · have hne : (field, component) ≠ key := fun h => hkey h.symm
    simp [hkey, hne, plain]

/-- The column that a value is set in, which is made of zeros if there is none. -/
theorem getD_plain (s : Store K domain) (key : String × ℕ) :
    (s.plain key).getD (List.replicate domain.cellCount Scalar.zero) =
      (s.columns[key]?.getD (Vector.replicate domain.cellCount Scalar.zero)).toList := by
  rw [plain, ← Vector.toList_replicate, Option.getD_map]

theorem length_getD_plain (s : Store K domain) (key : String × ℕ) :
    ((s.plain key).getD (List.replicate domain.cellCount Scalar.zero)).length =
      domain.cellCount := by
  rw [getD_plain, Vector.length_toList]

theorem plain_set (s : Store K domain) (field : String) (component : ℕ) (cell : Cell) (value : K) :
    (s.set field component cell value).plain =
      Function.update s.plain (field, component)
        (((s.plain (field, component)).getD (List.replicate domain.cellCount Scalar.zero)).set
          (domain.place cell) value) := by
  funext key
  rw [plain, set, Std.HashMap.getElem?_alter, Function.update_apply, getD_plain]
  by_cases hkey : key = (field, component)
  · subst hkey
    simp only [beq_self_eq_true, if_true, Option.map_some, Vector.toList_set]
    rfl
  · have hne : (field, component) ≠ key := fun h => hkey h.symm
    simp [hkey, hne, plain]

/-- A change of the columns of a store never fails, and gives the columns of the changed store. -/
theorem change?_plain (s : Store K domain) (c : Change K) :
    s.plain.change? domain c = some (s.change c).plain := by
  cases c with
  | fillWith field component f => rw [PlainColumns.change?, change, plain_fillWith]
  | fill field component value => rw [PlainColumns.change?, change, fill, plain_fillWith]
  | set field component cell value =>
      have hplace : domain.place cell <
          ((s.plain (field, component)).getD
            (List.replicate domain.cellCount Scalar.zero)).length := by
        rw [length_getD_plain]
        exact domain.place_lt cell
      simp only [PlainColumns.change?, change, plain_set, if_pos hplace]

theorem changeAll?_plain (s : Store K domain) (changes : List (Change K)) :
    s.plain.changeAll? domain changes = some (s.changeAll changes).plain := by
  induction changes generalizing s with
  | nil => rfl
  | cons c changes ih =>
      rw [PlainColumns.changeAll?, List.foldlM_cons, change?_plain]
      exact ih (s.change c)

omit [Scalar K] in
@[simp] theorem plain_empty : (∅ : Store K domain).plain = PlainColumns.empty := by
  funext key
  exact congrArg (Option.map Vector.toList) Std.HashMap.getElem?_empty

omit [Scalar K] in
theorem length_of_plain {s : Store K domain} {key : String × ℕ} {column : List K}
    (h : s.plain key = some column) : column.length = domain.cellCount := by
  obtain ⟨values, -, rfl⟩ := Option.map_eq_some_iff.1 h
  exact values.length_toList

omit [Scalar K] in
/-- A value is found in its column by the number of its cell. -/
theorem get?_eq_plain (s : Store K domain) (field : String) (component : ℕ) (x : Cell) :
    s.get? field component x =
      (s.plain (field, component)).bind fun column => column[domain.place x]? := by
  rw [get?, plain]
  cases s.columns[(field, component)]? with
  | none => rfl
  | some values =>
      have hplace : domain.place x < values.toList.length := by
        rw [values.length_toList]
        exact domain.place_lt x
      simp only [Option.map_some, Option.bind_some, List.getElem?_eq_getElem hplace]
      rfl

end Store

/-- After any changes of an empty store, a read finds what the map of the changes holds for the folded
cell, and finds nothing exactly if no change was about the component.  Plain columns go through the
same changes without a number beyond their ends, and reading them by number finds the same.  A total is
the sum of what the map holds for the interior cells. -/
theorem Store.changeAll_refines_cellMap (changes : List (Change K)) :
    let s : Store K domain := (∅ : Store K domain).changeAll changes
    let m : CellMap K := CellMap.empty.changeAll domain changes
    (∀ field component x, s.get? field component x = m field component (domain.foldCell x)) ∧
      (∀ field component x, s.get? field component x = none ↔
        ∀ c ∈ changes, c.column ≠ (field, component)) ∧
      (∃ columns, PlainColumns.empty.changeAll? domain changes = some columns ∧
        (∀ key column, columns key = some column → column.length = domain.cellCount) ∧
        ∀ field component x, s.get? field component x =
          (columns (field, component)).bind fun column => column[domain.place x]?) ∧
      ∀ [OrderedField K] [ExactScalar K] field component, s.total field component =
        ((Region.interior domain).cells.map fun x => (m field component x).getD 0).sum := by
  intro s m
  have hmap (field : String) (component : ℕ) (x : Cell) :
      s.get? field component x = m field component (domain.foldCell x) :=
    get?_changeAll (fun _ _ _ => get?_empty _ _ _) changes field component x
  refine ⟨hmap, fun field component x => ?_, ⟨s.plain, ?_, fun _ _ => length_of_plain,
    s.get?_eq_plain⟩, ?_⟩
  · rw [hmap, CellMap.changeAll_eq_none_iff]
    exact and_iff_left rfl
  · rw [← plain_empty, changeAll?_plain]
  · intro _ _ field component
    rw [total_eq_sum_cells]
    refine congrArg List.sum (List.map_congr_left fun x hx => ?_)
    rw [hmap, Region.foldCell_of_mem_interior hx]

/-- Some changes of a narrow domain: one component is filled and then changed far outside the interior,
and one value of another component is set. -/
noncomputable def narrowChanges : List (Change ℝ) :=
  [.fill "c" 0 1, .set "c" 0 ⟨5, -1, 7⟩ (-1), .set "q" 1 ⟨0, 0, -1⟩ 1]

theorem Store.changeAll_refines_cellMap_narrow :
    let s : Store ℝ .narrow := (∅ : Store ℝ .narrow).changeAll narrowChanges
    s.get? "c" 0 ⟨-1, 3, -2⟩ = some (-1) ∧ s.get? "q" 1 ⟨0, 0, 0⟩ = some 0 ∧
      s.get? "q" 0 ⟨0, 0, 0⟩ = none ∧ s.total "c" 0 = 4 := by
  intro s
  obtain ⟨hget, hnone, -, htotal⟩ := @changeAll_refines_cellMap ℝ _ .narrow narrowChanges
  have hcells : (Region.interior .narrow).cells =
      [⟨0, 0, 0⟩, ⟨0, 1, 0⟩, ⟨0, 0, 1⟩, ⟨0, 1, 1⟩, ⟨0, 0, 2⟩, ⟨0, 1, 2⟩] := by decide
  have hset : Domain.narrow.foldCell ⟨5, -1, 7⟩ = ⟨0, 1, 1⟩ := by decide
  have hread : Domain.narrow.foldCell ⟨-1, 3, -2⟩ = ⟨0, 1, 1⟩ := by decide
  have hset' : Domain.narrow.foldCell ⟨0, 0, -1⟩ = ⟨0, 0, 2⟩ := by decide
  have hread' : Domain.narrow.foldCell ⟨0, 0, 0⟩ = ⟨0, 0, 0⟩ := by decide
  refine ⟨?_, ?_, ?_, ?_⟩
  · rw [hget, hread]
    simp [narrowChanges, CellMap.changeAll, CellMap.change, Change.column, Change.valueAt, hset]
  · rw [hget, hread']
    simp [narrowChanges, CellMap.changeAll, CellMap.change, CellMap.empty, Change.column,
      Change.valueAt, hset']
  · refine (hnone _ _ _).2 fun c hc => ?_
    simp only [narrowChanges, List.mem_cons, List.not_mem_nil, or_false] at hc
    obtain rfl | rfl | rfl := hc <;> simp [Change.column]
  · rw [htotal, hcells]
    norm_num [narrowChanges, CellMap.changeAll, CellMap.change, Change.column, Change.valueAt, hset]

end Electrokinetics
