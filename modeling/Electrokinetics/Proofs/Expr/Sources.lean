/-
**The sources of an expression.**

Parameters, field reads, coordinates, random draws and derivatives are the nodes whose value does not
follow from the values of the nodes below them.  Evaluation looks at nothing else: where all sources
keep their values, so does the whole expression, rounding included.

Main definitions:

* `Expr.isSource`, `Expr.Over` — the sources, and a property of all of them.

Main results:

* `Expr.Over.keeps` — values that depend on the sources alone.
-/

import Electrokinetics.Proofs.Expr.Lookup

set_option relaxedAutoImplicit false
set_option autoImplicit false

namespace Electrokinetics

namespace Expr

variable {K : Type} {p q : Expr K → Prop}

/-- Whether the value of a node does not follow from the values of the nodes below it. -/
def isSource : Expr K → Bool
  | .symbol _ => true
  | .access _ => true
  | .counter _ => true
  | .deriv _ _ => true
  | .random _ => true
  | _ => false

theorem isSource_of_isLookup {t : Expr K} (h : t.isLookup = true) : t.isSource = true := by
  cases t with
  | symbol s => rfl
  | access a => rfl
  | counter axis => rfl
  | _ => cases h

/-- All sources of an expression have a property, also those below other sources. -/
def Over (p : Expr K → Prop) (e : Expr K) : Prop := ∀ t ∈ e.subterms, t.isSource = true → p t

theorem Over.mono {e : Expr K} (h : e.Over p) (hpq : ∀ t, t.isSource = true → p t → q t) :
    e.Over q :=
  fun t ht hsource => hpq t hsource (h t ht hsource)

variable [Scalar K] {env env' : Env K}

/-- A node keeps its value if it is a source. -/
def KeepsSource (env env' : Env K) (t : Expr K) : Prop :=
  t.isSource = true → Keeps (t.eval env) (t.eval env')

/-- Where the sources keep their values, so does the expression. -/
theorem Over.keeps {e : Expr K} (h : e.Over fun t => Keeps (t.eval env) (t.eval env')) :
    Keeps (e.eval env) (e.eval env') := by
  -- A draw is taken as a whole, so nothing is asked of the nodes of its key.
  have hsources : e.All (KeepsSource env env') := h
  exact related_eval composable_keeps (fun _ => isSource_of_isLookup) hsources

end Expr

end Electrokinetics
