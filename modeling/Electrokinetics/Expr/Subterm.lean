/-
The subterms of an expression, and what an expression reads.

Main definitions:

* `Expr.children` — the expressions directly below an expression;
* `Expr.subterms` — all nodes of a tree, each before the nodes below it;
* `Expr.accesses`, `Expr.symbols` — the distinct field reads and parameters, in the order of
  their first appearance;
* `Expr.hasAccess`, `Expr.hasCounter` — whether the value may change with the cell.

Main results:

* `Expr.subterms_eq` — the nodes of a tree are reached through the children;
* `Expr.mem_accesses`, `Expr.mem_symbols` — the reads and the parameters are nodes.
-/

import Electrokinetics.Expr.Basic

set_option relaxedAutoImplicit false
set_option autoImplicit false

namespace Electrokinetics

variable {K : Type}

mutual

/-- The expressions of a condition, in order. -/
def Cond.exprs : Cond K → List (Expr K)
  | .const _ => []
  | .greater lhs rhs => [lhs, rhs]
  | .all conds => Cond.exprsList conds

/-- The expressions of a list of conditions, in order. -/
def Cond.exprsList : List (Cond K) → List (Expr K)
  | [] => []
  | c :: cs => c.exprs ++ Cond.exprsList cs

end

theorem Cond.exprsList_eq (conds : List (Cond K)) : Cond.exprsList conds = conds.flatMap exprs := by
  induction conds with
  | nil => rfl
  | cons c cs ih => simp [Cond.exprsList, ih]

/-- The expressions directly below an expression.  Those of a condition come before the branches,
and those of a random key are the counters, the time step and the seed. -/
def Expr.children : Expr K → List (Expr K)
  | .sum es => es
  | .prod es => es
  | .call _ es => es
  | .power base exponent => [base, exponent]
  | .modulo value modulus => [value, modulus]
  | .deriv arg _ => [arg]
  | .select cond whenTrue whenFalse => cond.exprs ++ [whenTrue, whenFalse]
  | .random key => key.exprs
  | _ => []

mutual

/-- The nodes of a tree, each before the nodes below it. -/
def Expr.subterms : Expr K → List (Expr K)
  | .num value => [.num value]
  | .symbol s => [.symbol s]
  | .access a => [.access a]
  | .counter axis => [.counter axis]
  | .sum es => .sum es :: Expr.subtermsList es
  | .prod es => .prod es :: Expr.subtermsList es
  | .power base exponent => .power base exponent :: (base.subterms ++ exponent.subterms)
  | .call f es => .call f es :: Expr.subtermsList es
  | .modulo value modulus => .modulo value modulus :: (value.subterms ++ modulus.subterms)
  | .deriv arg axis => .deriv arg axis :: arg.subterms
  | .select cond whenTrue whenFalse =>
    .select cond whenTrue whenFalse ::
      (cond.subterms ++ whenTrue.subterms ++ whenFalse.subterms)
  | .random ⟨⟨x, y, z⟩, channel, timeStep, seed⟩ =>
    .random ⟨⟨x, y, z⟩, channel, timeStep, seed⟩ ::
      (x.subterms ++ y.subterms ++ z.subterms ++ timeStep.subterms ++ seed.subterms)

/-- The nodes of the expressions of a condition. -/
def Cond.subterms : Cond K → List (Expr K)
  | .const _ => []
  | .greater lhs rhs => lhs.subterms ++ rhs.subterms
  | .all conds => Cond.subtermsList conds

/-- The nodes of a list of expressions. -/
def Expr.subtermsList : List (Expr K) → List (Expr K)
  | [] => []
  | e :: es => e.subterms ++ Expr.subtermsList es

/-- The nodes of the expressions of a list of conditions. -/
def Cond.subtermsList : List (Cond K) → List (Expr K)
  | [] => []
  | c :: cs => c.subterms ++ Cond.subtermsList cs

end

theorem Expr.subtermsList_eq (es : List (Expr K)) :
    Expr.subtermsList es = es.flatMap Expr.subterms := by
  induction es with
  | nil => rfl
  | cons e es ih => simp [Expr.subtermsList, ih]

theorem Cond.subtermsList_eq (conds : List (Cond K)) :
    Cond.subtermsList conds = conds.flatMap Cond.subterms := by
  induction conds with
  | nil => rfl
  | cons c cs ih => simp [Cond.subtermsList, ih]

mutual

theorem Cond.subterms_eq : ∀ c : Cond K, c.subterms = c.exprs.flatMap Expr.subterms
  | .const _ => rfl
  | .greater lhs rhs => by simp [Cond.subterms, Cond.exprs]
  | .all conds => Cond.subtermsList_eq_exprsList conds

theorem Cond.subtermsList_eq_exprsList : ∀ conds : List (Cond K),
    Cond.subtermsList conds = (Cond.exprsList conds).flatMap Expr.subterms
  | [] => rfl
  | c :: cs => by
    rw [Cond.subtermsList, Cond.exprsList, List.flatMap_append, Cond.subterms_eq c,
      Cond.subtermsList_eq_exprsList cs]

end

namespace Expr

/-- The nodes of a tree are its root and the nodes of its children. -/
theorem subterms_eq (e : Expr K) : e.subterms = e :: e.children.flatMap subterms := by
  cases e with
  | num value => rfl
  | symbol s => rfl
  | access a => rfl
  | counter axis => rfl
  | sum es => rw [subterms, subtermsList_eq, children]
  | prod es => rw [subterms, subtermsList_eq, children]
  | call f es => rw [subterms, subtermsList_eq, children]
  | power base exponent => simp [subterms, children]
  | modulo value modulus => simp [subterms, children]
  | deriv arg axis => simp [subterms, children]
  | select cond whenTrue whenFalse => simp [subterms, children, Cond.subterms_eq]
  | random key =>
    obtain ⟨⟨x, y, z⟩, channel, timeStep, seed⟩ := key
    simp [subterms, children, RandomKey.exprs, PerAxis.toList]

/-- Whether some field is read. -/
def hasAccess (e : Expr K) : Bool := e.subterms.any isAccess

/-- Whether some coordinate of the current cell occurs. -/
def hasCounter (e : Expr K) : Bool := e.subterms.any isCounter

/-- The read that an expression is, if it is one. -/
def access? : Expr K → Option Access
  | .access a => some a
  | _ => none

/-- The parameter that an expression is, if it is one. -/
def symbol? : Expr K → Option Symbol
  | .symbol s => some s
  | _ => none

/-- The distinct field reads, in the order of their first appearance. -/
def accesses (e : Expr K) : List Access := (e.subterms.filterMap access?).eraseDups

/-- The distinct parameters, in the order of their first appearance. -/
def symbols (e : Expr K) : List Symbol := (e.subterms.filterMap symbol?).eraseDups

theorem self_mem_subterms (e : Expr K) : e ∈ e.subterms := by
  cases e <;> simp [subterms]

theorem mem_accesses {e : Expr K} {a : Access} : a ∈ e.accesses ↔ .access a ∈ e.subterms := by
  simp only [accesses, List.mem_eraseDups, List.mem_filterMap]
  constructor
  · rintro ⟨f, hf, h⟩
    cases f <;> simp_all [access?]
  · intro h
    exact ⟨_, h, rfl⟩

/-- An expression that reads no field has no node that does. -/
theorem access_notMem_subterms {e : Expr K} (h : e.hasAccess = false) (a : Access) :
    .access a ∉ e.subterms :=
  fun hmem => List.any_eq_false.1 h _ hmem rfl

/-- An expression without coordinates has no node that is one. -/
theorem counter_notMem_subterms {e : Expr K} (h : e.hasCounter = false) (axis : Axis) :
    .counter axis ∉ e.subterms :=
  fun hmem => List.any_eq_false.1 h _ hmem rfl

theorem mem_symbols {e : Expr K} {s : Symbol} :
    s ∈ e.symbols ↔ .symbol s ∈ e.subterms := by
  simp only [symbols, List.mem_eraseDups, List.mem_filterMap]
  constructor
  · rintro ⟨f, hf, h⟩
    cases f <;> simp_all [symbol?]
  · intro h
    exact ⟨_, h, rfl⟩

end Expr

end Electrokinetics
