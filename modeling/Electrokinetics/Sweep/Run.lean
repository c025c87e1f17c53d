/-
Running a kernel over cells of a grid.

All reads of a sweep see the store as it was before; all writes go to a copy.  A fault at any cell
makes the whole sweep fail.

Main definitions:

* `Store.writeAll` — the writes of one cell;
* `Collection.sweep`, `Collection.sweepInterior` — a sweep over given cells, and over the interior.
-/

import Electrokinetics.Assignment
import Electrokinetics.Grid.Region
import Electrokinetics.Sweep.Store

set_option relaxedAutoImplicit false
set_option autoImplicit false

namespace Electrokinetics

variable {K : Type} [Scalar K] {domain : Domain}

/-- Writes values at locations relative to a cell, one after the other. -/
def Store.writeAll (s : Store K domain) (cell : Cell) (writes : List (Access × K)) :
    Store K domain :=
  writes.foldl
    (fun s (a, value) => s.set a.field a.component (cell + a.offset) value) s

/-- Runs a kernel at some cells of `before` and collects the writes in `after`. -/
def Collection.sweepInto (kernel : Collection K) (before : Store K domain) (bindings : Bindings K)
    (after : Store K domain) : List Cell → Except (EvalError K) (Store K domain)
  | [] => .ok after
  | cell :: cells => do
    let writes ← kernel.evalAt before.get? bindings cell
    kernel.sweepInto before bindings (after.writeAll cell writes) cells

/-- Runs a kernel at some cells. -/
def Collection.sweep (kernel : Collection K) (s : Store K domain) (bindings : Bindings K)
    (cells : List Cell) : Except (EvalError K) (Store K domain) :=
  kernel.sweepInto s bindings s cells

/-- Runs a kernel at all interior cells. -/
def Collection.sweepInterior (kernel : Collection K) (s : Store K domain) (bindings : Bindings K) :
    Except (EvalError K) (Store K domain) :=
  kernel.sweep s bindings (Region.interior domain).cells

@[simp] theorem Store.writeAll_nil (s : Store K domain) (cell : Cell) :
    s.writeAll cell [] = s := rfl

@[simp] theorem Store.writeAll_cons (s : Store K domain) (cell : Cell) (a : Access) (value : K)
    (writes : List (Access × K)) :
    s.writeAll cell ((a, value) :: writes) =
      (s.set a.field a.component (cell + a.offset) value).writeAll cell writes :=
  rfl

end Electrokinetics
