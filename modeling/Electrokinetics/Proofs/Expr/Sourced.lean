/-
**Evaluation from other sources.**

Evaluation takes the values of parameters, field reads and coordinates from its surroundings, and a
derivative has no value at all.  All of these may be given from elsewhere: a read as the mean of two
cells, say, and a derivative as a difference of values nearby.  What is computed from them stays the
same.

Main definitions:

* `Expr.evalFrom` — evaluation with the results of these nodes from a source;
* `Expr.isSourced` — the nodes whose results the source gives.

Main results:

* `Expr.evalFrom_eval` — evaluation itself, as the source.
-/

import Electrokinetics.Expr.Eval

set_option relaxedAutoImplicit false
set_option autoImplicit false

namespace Electrokinetics

variable {K : Type} [Scalar K]

mutual

/-- The value of an expression, where a source gives the results of parameters, field reads,
coordinates and derivatives. -/
def Expr.evalFrom (source : Expr K → Except (EvalError K) K) : Expr K → Except (EvalError K) K
  | .num value => .ok value
  | .symbol s => source (.symbol s)
  | .access a => source (.access a)
  | .counter axis => source (.counter axis)
  | .sum terms => do
    let values ← Expr.evalListFrom source terms
    return values.foldl Scalar.add Scalar.zero
  | .prod factors => do
    let values ← Expr.evalListFrom source factors
    return values.foldl Scalar.mul Scalar.one
  | .power base exponent => do
    let b ← base.evalFrom source
    let e ← exponent.evalFrom source
    return Scalar.pow b e
  | .call f args => do
    let values ← Expr.evalListFrom source args
    match f.value? values with
    | some value => return value
    | none => .error (.badArity f values.length)
  | .modulo value modulus => do
    let m ← modulus.evalFrom source
    if Scalar.isZero m then .error .moduloByZero
    else
      let a ← value.evalFrom source
      return Scalar.rem a m
  | .deriv arg axis => source (.deriv arg axis)
  | .select cond whenTrue whenFalse => do
    if ← cond.evalFrom source then whenTrue.evalFrom source else whenFalse.evalFrom source
  | .random ⟨⟨x, y, z⟩, channel, timeStep, seed⟩ => do
    let x ← KeyPart.counter.toInteger (← x.evalFrom source)
    let y ← KeyPart.counter.toInteger (← y.evalFrom source)
    let z ← KeyPart.counter.toInteger (← z.evalFrom source)
    let t ← KeyPart.timeStep.toNatural (← timeStep.evalFrom source)
    let s ← KeyPart.seed.toNatural (← seed.evalFrom source)
    return unitDraw ⟨x, y, z⟩ channel t s

/-- Whether a condition holds, from a source. -/
def Cond.evalFrom (source : Expr K → Except (EvalError K) K) : Cond K → Except (EvalError K) Bool
  | .const value => .ok value
  | .greater lhs rhs => do
    let a ← lhs.evalFrom source
    let b ← rhs.evalFrom source
    return Scalar.lt b a
  | .all conds => Cond.evalAllFrom source conds

/-- The values of some expressions, in order, from a source. -/
def Expr.evalListFrom (source : Expr K → Except (EvalError K) K) :
    List (Expr K) → Except (EvalError K) (List K)
  | [] => .ok []
  | e :: es => do
    let value ← e.evalFrom source
    let values ← Expr.evalListFrom source es
    return value :: values

/-- Whether all of some conditions hold, from a source. -/
def Cond.evalAllFrom (source : Expr K → Except (EvalError K) K) :
    List (Cond K) → Except (EvalError K) Bool
  | [] => .ok true
  | c :: cs => do
    if ← c.evalFrom source then Cond.evalAllFrom source cs else return false

end

namespace Expr

omit [Scalar K] in
/-- Whether the result of a node comes from the source. -/
def isSourced : Expr K → Bool
  | .symbol _ => true
  | .access _ => true
  | .counter _ => true
  | .deriv _ _ => true
  | _ => false

variable {env : Env K}

theorem evalListFrom_eval {es : List (Expr K)}
    (h : ∀ e ∈ es, e.evalFrom (fun t => t.eval env) = e.eval env) :
    evalListFrom (fun t => t.eval env) es = evalList env es := by
  induction es with
  | nil => rfl
  | cons e es ih =>
      obtain ⟨hhead, htail⟩ := List.forall_mem_cons.1 h
      rw [evalListFrom, evalList, hhead, ih htail]

theorem evalAllFrom_eval {cs : List (Cond K)}
    (h : ∀ c ∈ cs, c.evalFrom (fun t => t.eval env) = c.eval env) :
    Cond.evalAllFrom (fun t => t.eval env) cs = Cond.evalAll env cs := by
  induction cs with
  | nil => rfl
  | cons c cs ih =>
      obtain ⟨hhead, htail⟩ := List.forall_mem_cons.1 h
      rw [Cond.evalAllFrom, Cond.evalAll, hhead, ih htail]

/-- The induction behind `Expr.evalFrom_eval`. -/
theorem evalFromSteps : Expr.InductionSteps (K := K)
    (fun e => e.evalFrom (fun t => t.eval env) = e.eval env)
    (fun c => c.evalFrom (fun t => t.eval env) = c.eval env) where
  num value := rfl
  symbol s := rfl
  access a := rfl
  counter axis := rfl
  sum terms ih := by rw [evalFrom, eval, evalListFrom_eval ih]
  prod factors ih := by rw [evalFrom, eval, evalListFrom_eval ih]
  power base exponent ih₁ ih₂ := by rw [evalFrom, eval, ih₁, ih₂]
  call g args ih := by
    rw [eval, ← evalListFrom_eval ih]
    rfl
  modulo value modulus ih₁ ih₂ := by rw [evalFrom, eval, ih₁, ih₂]
  deriv arg axis _ := rfl
  select cond whenTrue whenFalse ihc ih₁ ih₂ := by rw [evalFrom, eval, ihc, ih₁, ih₂]
  random key ihcounters iht ihs := by
    obtain ⟨⟨x, y, z⟩, channel, timeStep, seed⟩ := key
    have hx : x.evalFrom _ = x.eval env := ihcounters .x
    have hy : y.evalFrom _ = y.eval env := ihcounters .y
    have hz : z.evalFrom _ = z.eval env := ihcounters .z
    have ht : timeStep.evalFrom _ = timeStep.eval env := iht
    have hs : seed.evalFrom _ = seed.eval env := ihs
    rw [evalFrom, eval, hx, hy, hz, ht, hs]
  const value := rfl
  greater lhs rhs ih₁ ih₂ := by rw [Cond.evalFrom, Cond.eval, ih₁, ih₂]
  all conds ih := evalAllFrom_eval ih

/-- With evaluation itself as the source nothing changes. -/
theorem evalFrom_eval (env : Env K) (e : Expr K) : e.evalFrom (fun t => t.eval env) = e.eval env :=
  Expr.induct evalFromSteps e

end Expr

end Electrokinetics
