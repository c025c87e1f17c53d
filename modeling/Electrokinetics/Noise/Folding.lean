/-
Folding the random keys of ghost cells.

A sweep that includes ghost layers evaluates the noise of ghost cells too.  Folding the coordinates
inside every random key onto the periodic domain makes the draw of a ghost cell that of its periodic
image, so that both sides of a periodic boundary see the same noise.  Nothing outside the keys is
changed.

Main definitions:

* `foldCounters` — the coordinates in an expression, folded;
* `foldRandomKeys` — a collection with folded keys.
-/

import Electrokinetics.Assignment

set_option relaxedAutoImplicit false
set_option autoImplicit false

namespace Electrokinetics

variable {K : Type} [Scalar K]

/-- Replaces every coordinate by its remainder by the extent along its axis. -/
def foldCounters (extents : PerAxis (Expr K)) : Expr K → Expr K :=
  Expr.transform fun e => match e with
    | .counter axis => some ((Expr.counter axis).mod (extents.get axis))
    | _ => none

/-- Folds the counters of all random keys.  Time steps and seeds are left as they are, with the draws
that may be nested in them. -/
def foldRandomKeys (flux : Collection K) (extents : PerAxis (Expr K)) : Collection K :=
  flux.mapKeys fun key => key.mapCounters fun _ counter => foldCounters extents counter

end Electrokinetics
