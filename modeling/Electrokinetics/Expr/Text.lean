/-
The text of expressions.

Parentheses are written where the binding strength of a node is below what its place asks for: sums
bind weakest, then products, then powers, and a negative number binds like a sum.

Main definitions:

* `Precedence` — the binding strengths;
* `Expr.render` — the text of an expression at a place of some strength;
* `Expr.text`, `Cond.text`, `Access.text` — the texts at a place that asks for nothing.
-/

import Electrokinetics.Expr.Basic

set_option relaxedAutoImplicit false
set_option autoImplicit false

namespace Electrokinetics

/-- The text of a field read: the component is left out if it is the first. -/
def Access.text (a : Access) : String :=
  let component := if a.component = 0 then "" else "(" ++ toString a.component ++ ")"
  a.field ++ component ++ "[" ++ toString a.offset.x ++ "," ++ toString a.offset.y ++ "," ++
    toString a.offset.z ++ "]"

namespace Precedence

/-- The strength of a place where anything may stand. -/
def any : Nat := 0

/-- The strength of a sum. -/
def sum : Nat := 1

/-- The strength of a product. -/
def prod : Nat := 2

/-- The strength of a power. -/
def power : Nat := 3

/-- The strength of what needs no parentheses anywhere. -/
def atom : Nat := 4

/-- Puts a text of some strength at a place that asks for another. -/
def place (own asked : Nat) (text : String) : String :=
  if own < asked then "(" ++ text ++ ")" else text

end Precedence

variable {K : Type} [Scalar K]

mutual

/-- The text of an expression at a place that asks for some strength. -/
def Expr.render (asked : Nat) : Expr K → String
  | .num value =>
    let own := if Scalar.isNegative value then Precedence.sum else Precedence.atom
    Precedence.place own asked (Scalar.text value)
  | .symbol s => s.name
  | .access a => a.text
  | .counter axis => "ctr_" ++ axis.text
  | .sum terms =>
    Precedence.place Precedence.sum asked
      (" + ".intercalate (Expr.renderList Precedence.sum terms))
  | .prod factors =>
    Precedence.place Precedence.prod asked
      ("*".intercalate (Expr.renderList Precedence.power factors))
  | .power base exponent =>
    Precedence.place Precedence.power asked
      (base.render Precedence.atom ++ "**" ++ exponent.render Precedence.atom)
  | .call f args => f.name ++ "(" ++ ", ".intercalate (Expr.renderList Precedence.any args) ++ ")"
  | .modulo value modulus =>
    "mod(" ++ value.render Precedence.any ++ ", " ++ modulus.render Precedence.any ++ ")"
  | .deriv arg axis => "Diff(" ++ arg.render Precedence.any ++ ", " ++ axis.text ++ ")"
  | .select cond whenTrue whenFalse =>
    "select(" ++ cond.text ++ ", " ++ whenTrue.render Precedence.any ++ ", " ++
      whenFalse.render Precedence.any ++ ")"
  | .random ⟨⟨x, y, z⟩, channel, timeStep, seed⟩ =>
    "random(" ++ x.render Precedence.any ++ ", " ++ y.render Precedence.any ++ ", " ++
      z.render Precedence.any ++ "; channel " ++ toString channel ++ "; " ++
      timeStep.render Precedence.any ++ ", " ++ seed.render Precedence.any ++ ")"

/-- The text of a condition. -/
def Cond.text : Cond K → String
  | .const value => if value then "true" else "false"
  | .greater lhs rhs => lhs.render Precedence.any ++ " > " ++ rhs.render Precedence.any
  | .all conds => "(" ++ " && ".intercalate (Cond.textList conds) ++ ")"

/-- The texts of some expressions at places of one strength. -/
def Expr.renderList (asked : Nat) : List (Expr K) → List String
  | [] => []
  | e :: es => e.render asked :: Expr.renderList asked es

/-- The texts of some conditions. -/
def Cond.textList : List (Cond K) → List String
  | [] => []
  | c :: cs => c.text :: Cond.textList cs

end

/-- The text of an expression. -/
def Expr.text (e : Expr K) : String := e.render Precedence.any

theorem Expr.renderList_eq (asked : Nat) (es : List (Expr K)) :
    Expr.renderList asked es = es.map (Expr.render asked) := by
  induction es with
  | nil => rfl
  | cons e es ih => simp [Expr.renderList, ih]

theorem Cond.textList_eq (conds : List (Cond K)) : Cond.textList conds = conds.map Cond.text := by
  induction conds with
  | nil => rfl
  | cons c cs ih => simp [Cond.textList, ih]

end Electrokinetics
