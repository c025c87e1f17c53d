/-
Transforming expressions.

A transformation offers every node of a tree, from the root down, to a function that may replace it.
The nodes above a replacement are built again in normal form.

Main definitions:

* `Expr.transform` — the general transformation;
* `Expr.substitute`, `Expr.mapAccesses`, `Expr.shift`, `Expr.mapKeys` — transformations
  that replace one kind of leaf.
-/

import Electrokinetics.Expr.Build

set_option relaxedAutoImplicit false
set_option autoImplicit false

namespace Electrokinetics

variable {K : Type} [Scalar K]

mutual

/-- Replaces every node for which `f` gives a replacement, and rebuilds the nodes above it.  Nodes
below a replaced one are not looked at. -/
def Expr.transform (f : Expr K → Option (Expr K)) : Expr K → Expr K
  | .num value => (f (.num value)).getD (.num value)
  | .symbol s => (f (.symbol s)).getD (.symbol s)
  | .access a => (f (.access a)).getD (.access a)
  | .counter axis => (f (.counter axis)).getD (.counter axis)
  | .sum es => (f (.sum es)).getD (.add (Expr.transformList f es))
  | .prod es => (f (.prod es)).getD (.mul (Expr.transformList f es))
  | .power base exponent =>
    (f (.power base exponent)).getD (.pow (base.transform f) (exponent.transform f))
  | .call g es => (f (.call g es)).getD (.apply g (Expr.transformList f es))
  | .modulo value modulus =>
    (f (.modulo value modulus)).getD (.mod (value.transform f) (modulus.transform f))
  | .deriv arg axis => (f (.deriv arg axis)).getD (.diff (arg.transform f) axis)
  | .select cond whenTrue whenFalse =>
    (f (.select cond whenTrue whenFalse)).getD
      (.piecewise (cond.transform f) (whenTrue.transform f) (whenFalse.transform f))
  | .random ⟨⟨x, y, z⟩, channel, timeStep, seed⟩ =>
    (f (.random ⟨⟨x, y, z⟩, channel, timeStep, seed⟩)).getD
      (.random ⟨⟨x.transform f, y.transform f, z.transform f⟩, channel, timeStep.transform f,
        seed.transform f⟩)

/-- Replaces nodes in the expressions of a condition. -/
def Cond.transform (f : Expr K → Option (Expr K)) : Cond K → Cond K
  | .const value => .const value
  | .greater lhs rhs => .gt (lhs.transform f) (rhs.transform f)
  | .all conds => .and (Cond.transformList f conds)

/-- Replaces nodes in a list of expressions. -/
def Expr.transformList (f : Expr K → Option (Expr K)) : List (Expr K) → List (Expr K)
  | [] => []
  | e :: es => e.transform f :: Expr.transformList f es

/-- Replaces nodes in a list of conditions. -/
def Cond.transformList (f : Expr K → Option (Expr K)) : List (Cond K) → List (Cond K)
  | [] => []
  | c :: cs => c.transform f :: Cond.transformList f cs

end

theorem Expr.transformList_eq (f : Expr K → Option (Expr K)) (es : List (Expr K)) :
    Expr.transformList f es = es.map (Expr.transform f) := by
  induction es with
  | nil => rfl
  | cons e es ih => simp [Expr.transformList, ih]

theorem Cond.transformList_eq (f : Expr K → Option (Expr K)) (conds : List (Cond K)) :
    Cond.transformList f conds = conds.map (Cond.transform f) := by
  induction conds with
  | nil => rfl
  | cons c cs ih => simp [Cond.transformList, ih]

namespace Expr

/-- The tree, built again in normal form. -/
def rebuild (e : Expr K) : Expr K := e.transform fun _ => none

/-- Replaces a parameter by an expression. -/
def substitute (e : Expr K) (s : Symbol) (value : Expr K) : Expr K :=
  e.transform fun e => match e with
    | .symbol t => if t = s then some value else none
    | _ => none

/-- Replaces every field read by an expression. -/
def mapAccesses (f : Access → Expr K) : Expr K → Expr K :=
  transform fun e => match e with
    | .access a => some (f a)
    | _ => none

/-- Moves every field read by an offset. -/
def shift (n : Offset) : Expr K → Expr K := mapAccesses fun a => .access (a.shift n)

/-- Replaces the keys of the random draws.  Draws inside a key are left to `f`. -/
def mapKeys (f : RandomKey (Expr K) → RandomKey (Expr K)) : Expr K → Expr K :=
  transform fun e => match e with
    | .random key => some (.random (f key))
    | _ => none

end Expr

end Electrokinetics
