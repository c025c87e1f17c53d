/-
The parameters of the kernels.

Kernels refer to the constants of the physics, to the extents of the domain and to what identifies
the noise of a time step by name.  The names are given here once, so that a kernel and the bindings
that it is run with agree.

Main definitions:

* `Parameter` — the parameters, with `Parameter.name` and `Parameter.kind`;
* `Parameter.expr` — a parameter in a kernel;
* `extentParameters` — the extents of the domain, one per axis.

Main results:

* `Parameter.name_injective` — no two parameters have the same name.
-/

import Electrokinetics.Expr.Basic

set_option relaxedAutoImplicit false
set_option autoImplicit false

namespace Electrokinetics

/-- A parameter of the kernels. -/
inductive Parameter where
  /-- The diffusion coefficient. -/
  | diffusion
  /-- The valency of the species. -/
  | valency
  /-- The rate of a reaction. -/
  | rate
  /-- The number of the time step. -/
  | timeStep
  /-- The seed of the noise. -/
  | seed
  /-- The extent of the domain along an axis. -/
  | extent (axis : Axis)
  deriving DecidableEq, Repr

namespace Parameter

/-- The name of a parameter. -/
def name : Parameter → String
  | diffusion => "D"
  | valency => "z"
  | rate => "gamma"
  | timeStep => "time_step"
  | seed => "seed"
  | extent axis => "L_" ++ axis.text

/-- The kind of a parameter: what counts something is an integer. -/
def kind : Parameter → SymbolKind
  | diffusion => .real
  | valency => .real
  | rate => .real
  | timeStep => .integer
  | seed => .integer
  | extent _ => .integer

/-- The symbol of a parameter. -/
def symbol (p : Parameter) : Symbol := ⟨p.name, p.kind⟩

/-- A parameter in a kernel. -/
def expr {K : Type} (p : Parameter) : Expr K := .symbol p.symbol

/-- All parameters. -/
def all : List Parameter :=
  [diffusion, valency, rate, timeStep, seed] ++ Axis.all.map extent

theorem mem_all (p : Parameter) : p ∈ all := by
  cases p <;> simp [all]

theorem nodup_names : (all.map name).Nodup := by decide

/-- No two parameters have the same name. -/
theorem name_injective {p q : Parameter} (h : p.name = q.name) : p = q := by
  have distinct : ∀ p ∈ all, ∀ q ∈ all, p.name = q.name → p = q := by decide
  exact distinct p (mem_all p) q (mem_all q) h

end Parameter

/-- The extents of the domain, as parameters. -/
def extentParameters {K : Type} : PerAxis (Expr K) :=
  PerAxis.ofFn fun axis => (Parameter.extent axis).expr

end Electrokinetics
