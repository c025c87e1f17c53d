/-
Field values on a periodic domain.

A store keeps one value for each interior cell of each component that was ever set.  A read or write
outside the interior concerns the interior cell that the place stands for, which is what a completed
exchange of ghost layers would provide.

Main definitions:

* `Store` — the values, with `Store.get?`;
* `Store.fillWith`, `Store.fill`, `Store.set` — changes;
* `Store.total` — the sum of a component over the interior.

Main results:

* `Store.get?_fillWith`, `Store.get?_set` — what a change does to every value.
-/

import Electrokinetics.Grid.Domain
import Std.Data.HashMap

set_option relaxedAutoImplicit false
set_option autoImplicit false

namespace Electrokinetics

/-- The values of some components of fields on a domain: for each one a value per interior cell, in
the order of the numbering of the domain. -/
structure Store (K : Type) (domain : Domain) where
  /-- The values by field and component. -/
  columns : Std.HashMap (String × Nat) (Vector K domain.cellCount)

namespace Store

variable {K : Type} {domain : Domain}

/-- The store in which nothing is set. -/
def empty : Store K domain := ⟨∅⟩

instance : EmptyCollection (Store K domain) := ⟨empty⟩

instance : Inhabited (Store K domain) := ⟨empty⟩

/-- The value of a component at the interior cell that a cell stands for. -/
def get? (s : Store K domain) (field : String) (component : Nat) (cell : Cell) : Option K :=
  s.columns[(field, component)]?.map fun column => column[domain.index cell]

/-- Sets every value of a component from its cell. -/
def fillWith (s : Store K domain) (field : String) (component : Nat) (f : Cell → K) :
    Store K domain :=
  ⟨s.columns.insert (field, component) (Vector.ofFn fun i => f (domain.cellAt i.val))⟩

/-- Sets every value of a component to the same value. -/
def fill (s : Store K domain) (field : String) (component : Nat) (value : K) : Store K domain :=
  s.fillWith field component fun _ => value

section Scalars

variable [Scalar K]

/-- Sets one value of a component.  The first one that is set makes all others zero. -/
def set (s : Store K domain) (field : String) (component : Nat) (cell : Cell) (value : K) :
    Store K domain :=
  let i := domain.index cell
  ⟨s.columns.alter (field, component) fun column? =>
    some ((column?.getD (Vector.replicate _ Scalar.zero)).set i.val value i.isLt)⟩

/-- The sum of a component over the interior; a component that was never set sums to zero. -/
def total (s : Store K domain) (field : String) (component : Nat) : K :=
  match s.columns[(field, component)]? with
  | some column => Scalar.sum column.toList
  | none => Scalar.zero

end Scalars

/-! ### What a change does to every value -/

@[simp] theorem get?_empty (field : String) (component : Nat) (cell : Cell) :
    (empty : Store K domain).get? field component cell = none := by
  simp [get?, empty]

theorem get?_fillWith (s : Store K domain) (field other : String) (component k : Nat)
    (f : Cell → K) (cell : Cell) :
    (s.fillWith field component f).get? other k cell =
      if field = other ∧ component = k then some (f (domain.foldCell cell))
      else s.get? other k cell := by
  simp only [get?, fillWith, Std.HashMap.getElem?_insert, beq_iff_eq, Prod.mk.injEq]
  split
  · simp [Fin.getElem_fin, Domain.cellAt_index]
  · rfl

variable [Scalar K]

theorem get?_set (s : Store K domain) (field other : String) (component k : Nat) (cell x : Cell)
    (value : K) :
    (s.set field component cell value).get? other k x =
      if field = other ∧ component = k then
        if domain.index x = domain.index cell then some value
        else some ((s.get? field component x).getD Scalar.zero)
      else s.get? other k x := by
  simp only [get?, set, Std.HashMap.getElem?_alter, beq_iff_eq, Prod.mk.injEq]
  split
  · by_cases h : domain.index x = domain.index cell
    · simp [h]
    · have hne : (domain.index cell).val ≠ (domain.index x).val := fun hv => h (Fin.ext hv.symm)
      cases s.columns[(field, component)]? <;> simp [h, Vector.getElem_set_ne _ _ hne]
  · rfl

end Store

end Electrokinetics
