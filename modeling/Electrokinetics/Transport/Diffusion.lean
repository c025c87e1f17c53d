/-
The continuum flux of a charged species.

A concentration `c` in a potential `pot` flows down its gradient and, if it carries charge, down the
gradient of the potential: the flux is `-D ∇c - D z c ∇pot`.  In a constant potential the second
term vanishes from the expression and not only from its value.

Main definitions:

* `gradient` — the partial derivatives of an expression;
* `diffusionFlux` — diffusion and migration.
-/

import Electrokinetics.Expr.Build

set_option relaxedAutoImplicit false
set_option autoImplicit false

namespace Electrokinetics

variable {K : Type} [Scalar K]

/-- The partial derivatives of an expression. -/
def gradient (e : Expr K) : PerAxis (Expr K) := PerAxis.ofFn e.diff

/-- The flux `-D ∇c - D z c ∇pot` by diffusion and migration. -/
def diffusionFlux (c pot d z : Expr K) : PerAxis (Expr K) :=
  PerAxis.ofFn fun axis =>
    -(d * (gradient c).get axis) - d * z * c * (gradient pot).get axis

end Electrokinetics
