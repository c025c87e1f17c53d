/-
The value of an expression at a cell.

Evaluation follows the tree from left to right and stops at the first fault.  A case distinction
evaluates only the branch that it selects, and a conjunction stops at the first condition that does
not hold.

Main definitions:

* `EvalError` — why an expression has no value, with `EvalError.message`;
* `Expr.eval`, `Cond.eval` — evaluation;
* `RandomKey.eval` — the number that a key draws.
-/

import Electrokinetics.Expr.Basic
import Electrokinetics.Expr.Env
import Electrokinetics.Noise.Draw

set_option relaxedAutoImplicit false
set_option autoImplicit false

namespace Electrokinetics

/-- The parts of a random key that have to be integers. -/
inductive KeyPart where
  | counter
  | timeStep
  | seed
  deriving DecidableEq, Repr

/-- The name of a part in texts. -/
def KeyPart.text : KeyPart → String
  | counter => "counter"
  | timeStep => "time step"
  | seed => "seed"

/-- What is wrong with a part of a random key. -/
inductive KeyFault (K : Type) where
  /-- The value is no integer. -/
  | notInteger (value : K)
  /-- The value is an integer below zero, where none is allowed. -/
  | negative (value : Int)
  deriving DecidableEq, Repr

/-- Why an expression has no value. -/
inductive EvalError (K : Type) where
  /-- A parameter is not bound. -/
  | unboundSymbol (name : String)
  /-- A field has no value at a cell. -/
  | missingValue (field : String) (component : Nat) (cell : Cell)
  /-- A derivative was never discretised. -/
  | undiscretizedDerivative (axis : Axis)
  /-- A part of a random key is not usable. -/
  | invalidRandomKey (part : KeyPart) (fault : KeyFault K)
  /-- The modulus of a remainder is zero. -/
  | moduloByZero
  /-- A function has the wrong number of arguments. -/
  | badArity (function : Func) (found : Nat)
  deriving DecidableEq, Repr

/-- The text of a fault. -/
def EvalError.message {K : Type} [Scalar K] : EvalError K → String
  | .unboundSymbol name => "unbound symbol '" ++ name ++ "'"
  | .missingValue field component cell =>
    "no value for field '" ++ field ++ "' component " ++ toString component ++ " at cell " ++
      cell.bracketed toString
  | .undiscretizedDerivative axis =>
    "continuum derivative along axis " ++ axis.text ++ " cannot be evaluated"
  | .invalidRandomKey part (.notInteger value) =>
    "invalid random key: " ++ part.text ++ " = " ++ Scalar.text value ++ " is not an integer"
  | .invalidRandomKey part (.negative value) =>
    "invalid random key: " ++ part.text ++ " = " ++ toString value ++ " is negative"
  | .moduloByZero => "modulo by zero"
  | .badArity function found =>
    function.name ++ " takes " ++ toString function.arity ++ " argument(s) but was given " ++
      toString found

variable {K : Type} [Scalar K]

/-- Reads an integer part of a random key. -/
def KeyPart.toInteger (part : KeyPart) (value : K) : Except (EvalError K) Int :=
  if Scalar.isInteger value then .ok (Scalar.toInteger value)
  else .error (.invalidRandomKey part (.notInteger value))

/-- Reads a part of a random key that may not be negative. -/
def KeyPart.toNatural (part : KeyPart) (value : K) : Except (EvalError K) Nat := do
  let i ← part.toInteger value
  if i < 0 then .error (.invalidRandomKey part (.negative i)) else .ok i.toNat

mutual

/-- The value of an expression. -/
def Expr.eval (env : Env K) : Expr K → Except (EvalError K) K
  | .num value => .ok value
  | .symbol s =>
    match env.bindings.get? s.name with
    | some value => .ok value
    | none => .error (.unboundSymbol s.name)
  | .access a =>
    match env.fields a.field a.component (env.cell + a.offset) with
    | some value => .ok value
    | none => .error (.missingValue a.field a.component (env.cell + a.offset))
  | .counter axis => .ok (Scalar.ofInt (env.cell.get axis))
  | .sum terms => do
    let values ← Expr.evalList env terms
    return values.foldl Scalar.add Scalar.zero
  | .prod factors => do
    let values ← Expr.evalList env factors
    return values.foldl Scalar.mul Scalar.one
  | .power base exponent => do
    let b ← base.eval env
    let e ← exponent.eval env
    return Scalar.pow b e
  | .call f args => do
    let values ← Expr.evalList env args
    match f.value? values with
    | some value => return value
    | none => .error (.badArity f values.length)
  | .modulo value modulus => do
    let m ← modulus.eval env
    if Scalar.isZero m then .error .moduloByZero
    else
      let a ← value.eval env
      return Scalar.rem a m
  | .deriv _ axis => .error (.undiscretizedDerivative axis)
  | .select cond whenTrue whenFalse => do
    if ← cond.eval env then whenTrue.eval env else whenFalse.eval env
  | .random ⟨⟨x, y, z⟩, channel, timeStep, seed⟩ => do
    let x ← KeyPart.counter.toInteger (← x.eval env)
    let y ← KeyPart.counter.toInteger (← y.eval env)
    let z ← KeyPart.counter.toInteger (← z.eval env)
    let t ← KeyPart.timeStep.toNatural (← timeStep.eval env)
    let s ← KeyPart.seed.toNatural (← seed.eval env)
    return unitDraw ⟨x, y, z⟩ channel t s

/-- Whether a condition holds. -/
def Cond.eval (env : Env K) : Cond K → Except (EvalError K) Bool
  | .const value => .ok value
  | .greater lhs rhs => do
    let a ← lhs.eval env
    let b ← rhs.eval env
    return Scalar.lt b a
  | .all conds => Cond.evalAll env conds

/-- The values of some expressions, in order. -/
def Expr.evalList (env : Env K) : List (Expr K) → Except (EvalError K) (List K)
  | [] => .ok []
  | e :: es => do
    let value ← e.eval env
    let values ← Expr.evalList env es
    return value :: values

/-- Whether all of some conditions hold; those after the first that fails are not evaluated. -/
def Cond.evalAll (env : Env K) : List (Cond K) → Except (EvalError K) Bool
  | [] => .ok true
  | c :: cs => do
    if ← c.eval env then Cond.evalAll env cs else return false

end

/-- The number that a key draws. -/
def RandomKey.eval (env : Env K) (key : RandomKey (Expr K)) : Except (EvalError K) K :=
  (Expr.random key).eval env

theorem Expr.evalList_eq (env : Env K) (es : List (Expr K)) :
    Expr.evalList env es = es.mapM (Expr.eval env) := by
  induction es with
  | nil => rfl
  | cons e es ih => simp [Expr.evalList, List.mapM_cons, ih]

end Electrokinetics
