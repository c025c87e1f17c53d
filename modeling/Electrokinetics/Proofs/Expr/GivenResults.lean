/-
**Given results.**

The value of an expression can be asked for when the results of some of its coordinates and draws are
given from elsewhere and everything else is evaluated as usual.  Grafting is how a tree is made to
have such a value by itself: each graft evaluates to the given result.

Main definitions:

* `Expr.evalWith` — evaluation in which the results of some nodes are given.

Main results:

* `Expr.eval_graft` — a grafted tree has the value with the results of the grafts given;
* `Expr.evalWith_eq_eval` — results that are the usual ones change nothing.
-/

import Electrokinetics.Expr.Eval
import Electrokinetics.Proofs.Expr.Grafting

set_option relaxedAutoImplicit false
set_option autoImplicit false

namespace Electrokinetics

variable {K : Type} [Scalar K]

/-! ### Evaluation with given results -/

mutual

/-- The value of an expression in which the results of some coordinates and draws are given. -/
def Expr.evalWith (given : Expr K → Option (Except (EvalError K) K)) (env : Env K) :
    Expr K → Except (EvalError K) K
  | .num value => .ok value
  | .symbol s => (Expr.symbol s).eval env
  | .access a => (Expr.access a).eval env
  | .counter axis => (given (.counter axis)).getD ((Expr.counter axis).eval env)
  | .sum terms => do
    let values ← Expr.evalListWith given env terms
    return values.foldl Scalar.add Scalar.zero
  | .prod factors => do
    let values ← Expr.evalListWith given env factors
    return values.foldl Scalar.mul Scalar.one
  | .power base exponent => do
    let b ← base.evalWith given env
    let e ← exponent.evalWith given env
    return Scalar.pow b e
  | .call f args => do
    let values ← Expr.evalListWith given env args
    match f.value? values with
    | some value => return value
    | none => .error (.badArity f values.length)
  | .modulo value modulus => do
    let m ← modulus.evalWith given env
    if Scalar.isZero m then .error .moduloByZero
    else
      let a ← value.evalWith given env
      return Scalar.rem a m
  | .deriv _ axis => .error (.undiscretizedDerivative axis)
  | .select cond whenTrue whenFalse => do
    if ← cond.evalWith given env then whenTrue.evalWith given env
    else whenFalse.evalWith given env
  | .random ⟨⟨x, y, z⟩, channel, timeStep, seed⟩ =>
    (given (.random ⟨⟨x, y, z⟩, channel, timeStep, seed⟩)).getD do
      let x ← KeyPart.counter.toInteger (← x.evalWith given env)
      let y ← KeyPart.counter.toInteger (← y.evalWith given env)
      let z ← KeyPart.counter.toInteger (← z.evalWith given env)
      let t ← KeyPart.timeStep.toNatural (← timeStep.evalWith given env)
      let s ← KeyPart.seed.toNatural (← seed.evalWith given env)
      return unitDraw ⟨x, y, z⟩ channel t s

/-- Whether a condition holds, with given results. -/
def Cond.evalWith (given : Expr K → Option (Except (EvalError K) K)) (env : Env K) :
    Cond K → Except (EvalError K) Bool
  | .const value => .ok value
  | .greater lhs rhs => do
    let a ← lhs.evalWith given env
    let b ← rhs.evalWith given env
    return Scalar.lt b a
  | .all conds => Cond.evalAllWith given env conds

/-- The values of some expressions, with given results. -/
def Expr.evalListWith (given : Expr K → Option (Except (EvalError K) K)) (env : Env K) :
    List (Expr K) → Except (EvalError K) (List K)
  | [] => .ok []
  | e :: es => do
    let value ← e.evalWith given env
    let values ← Expr.evalListWith given env es
    return value :: values

/-- Whether all of some conditions hold, with given results. -/
def Cond.evalAllWith (given : Expr K → Option (Except (EvalError K) K)) (env : Env K) :
    List (Cond K) → Except (EvalError K) Bool
  | [] => .ok true
  | c :: cs => do
    if ← c.evalWith given env then Cond.evalAllWith given env cs else return false

end

namespace Expr

variable {given : Expr K → Option (Except (EvalError K) K)} {env : Env K}

/-! ### Values of grafted trees -/

section Graft

variable {f : Expr K → Option (Expr K)}

/-- The given result of a node is the value of its graft. -/
def GivesGraft (given : Expr K → Option (Except (EvalError K) K)) (f : Expr K → Option (Expr K))
    (env : Env K) (e : Expr K) : Prop :=
  given e = (f e).map (Expr.eval env)

theorem GivesGraft.getD {e u : Expr K} {r : Except (EvalError K) K} (h : GivesGraft given f env e)
    (hr : u.eval env = r) : ((f e).getD u).eval env = (given e).getD r := by
  rw [h, ← hr]
  cases f e <;> rfl

theorem evalList_graft {es : List (Expr K)}
    (ih : ∀ e ∈ es, e.All (GivesGraft given f env) → (e.graft f).eval env = e.evalWith given env)
    (h : ∀ e ∈ es, e.All (GivesGraft given f env)) :
    evalList env (graftList f es) = evalListWith given env es := by
  induction es with
  | nil => rfl
  | cons e es hes =>
      obtain ⟨ihhead, ihtail⟩ := List.forall_mem_cons.1 ih
      obtain ⟨hhead, htail⟩ := List.forall_mem_cons.1 h
      rw [graftList, evalList, evalListWith, ihhead hhead, hes ihtail htail]

theorem evalAll_graft {cs : List (Cond K)}
    (ih : ∀ c ∈ cs, c.All (GivesGraft given f env) → (c.graft f).eval env = c.evalWith given env)
    (h : ∀ c ∈ cs, c.All (GivesGraft given f env)) :
    Cond.evalAll env (Cond.graftList f cs) = Cond.evalAllWith given env cs := by
  induction cs with
  | nil => rfl
  | cons c cs hcs =>
      obtain ⟨ihhead, ihtail⟩ := List.forall_mem_cons.1 ih
      obtain ⟨hhead, htail⟩ := List.forall_mem_cons.1 h
      rw [Cond.graftList, Cond.evalAll, Cond.evalAllWith, ihhead hhead, hcs ihtail htail]

/-- The induction behind `Expr.eval_graft`. -/
theorem evalGraftSteps : Expr.InductionSteps (K := K)
    (fun e => e.All (GivesGraft given f env) → (e.graft f).eval env = e.evalWith given env)
    (fun c => c.All (GivesGraft given f env) → (c.graft f).eval env = c.evalWith given env) where
  num value _ := rfl
  symbol s _ := rfl
  access a _ := rfl
  counter axis h := h.self.getD rfl
  sum terms ih h := by rw [graft, eval, evalWith, evalList_graft ih (all_sum.1 h).2]
  prod factors ih h := by rw [graft, eval, evalWith, evalList_graft ih (all_prod.1 h).2]
  power base exponent ih₁ ih₂ h := by
    obtain ⟨-, h₁, h₂⟩ := all_power.1 h
    rw [graft, eval, evalWith, ih₁ h₁, ih₂ h₂]
  call g args ih h := by
    rw [graft, eval, evalList_graft ih (all_call.1 h).2]
    rfl
  modulo value modulus ih₁ ih₂ h := by
    obtain ⟨-, h₁, h₂⟩ := all_modulo.1 h
    rw [graft, eval, evalWith, ih₁ h₁, ih₂ h₂]
  deriv arg axis _ _ := rfl
  select cond whenTrue whenFalse ihc ih₁ ih₂ h := by
    obtain ⟨-, hc, h₁, h₂⟩ := all_select.1 h
    rw [graft, eval, evalWith, ihc hc, ih₁ h₁, ih₂ h₂]
  random key ihcounters iht ihs h := by
    obtain ⟨⟨x, y, z⟩, channel, timeStep, seed⟩ := key
    obtain ⟨-, hcounters, ht, hs⟩ := all_random.1 h
    have hx : (x.graft f).eval env = x.evalWith given env := ihcounters .x (hcounters .x)
    have hy : (y.graft f).eval env = y.evalWith given env := ihcounters .y (hcounters .y)
    have hz : (z.graft f).eval env = z.evalWith given env := ihcounters .z (hcounters .z)
    refine h.self.getD ?_
    rw [eval, hx, hy, hz, iht ht, ihs hs]
  const value _ := rfl
  greater lhs rhs ih₁ ih₂ h := by
    obtain ⟨h₁, h₂⟩ := Cond.all_greater.1 h
    rw [Cond.graft, Cond.eval, Cond.evalWith, ih₁ h₁, ih₂ h₂]
  all conds ih h := evalAll_graft ih (Cond.all_all.1 h)

/-- A grafted tree has the value that the tree has if the nodes that are grafted onto have the values of
their grafts. -/
theorem eval_graft {e : Expr K} (h : e.All (GivesGraft given f env)) :
    (e.graft f).eval env = e.evalWith given env :=
  Expr.induct evalGraftSteps e h

end Graft

/-! ### Results that are the usual ones -/

/-- If a result of a node is given, it is the usual one. -/
def GivesUsual (given : Expr K → Option (Except (EvalError K) K)) (env : Env K) (e : Expr K) : Prop :=
  ∀ r, given e = some r → r = e.eval env

theorem GivesUsual.getD {e : Expr K} (h : GivesUsual given env e) {r : Except (EvalError K) K}
    (hr : r = e.eval env) : (given e).getD r = e.eval env := by
  cases hgiven : given e with
  | some r' => exact h r' hgiven
  | none => exact hr

theorem evalListWith_eq {es : List (Expr K)}
    (ih : ∀ e ∈ es, e.All (GivesUsual given env) → e.evalWith given env = e.eval env)
    (h : ∀ e ∈ es, e.All (GivesUsual given env)) :
    evalListWith given env es = evalList env es := by
  induction es with
  | nil => rfl
  | cons e es hes =>
      obtain ⟨ihhead, ihtail⟩ := List.forall_mem_cons.1 ih
      obtain ⟨hhead, htail⟩ := List.forall_mem_cons.1 h
      rw [evalListWith, evalList, ihhead hhead, hes ihtail htail]

theorem evalAllWith_eq {cs : List (Cond K)}
    (ih : ∀ c ∈ cs, c.All (GivesUsual given env) → c.evalWith given env = c.eval env)
    (h : ∀ c ∈ cs, c.All (GivesUsual given env)) :
    Cond.evalAllWith given env cs = Cond.evalAll env cs := by
  induction cs with
  | nil => rfl
  | cons c cs hcs =>
      obtain ⟨ihhead, ihtail⟩ := List.forall_mem_cons.1 ih
      obtain ⟨hhead, htail⟩ := List.forall_mem_cons.1 h
      rw [Cond.evalAllWith, Cond.evalAll, ihhead hhead, hcs ihtail htail]

/-- The induction behind `Expr.evalWith_eq_eval`. -/
theorem usualSteps : Expr.InductionSteps (K := K)
    (fun e => e.All (GivesUsual given env) → e.evalWith given env = e.eval env)
    (fun c => c.All (GivesUsual given env) → c.evalWith given env = c.eval env) where
  num value _ := rfl
  symbol s _ := rfl
  access a _ := rfl
  counter axis h := h.self.getD rfl
  sum terms ih h := by rw [evalWith, eval, evalListWith_eq ih (all_sum.1 h).2]
  prod factors ih h := by rw [evalWith, eval, evalListWith_eq ih (all_prod.1 h).2]
  power base exponent ih₁ ih₂ h := by
    obtain ⟨-, h₁, h₂⟩ := all_power.1 h
    rw [evalWith, eval, ih₁ h₁, ih₂ h₂]
  call g args ih h := by
    rw [eval, ← evalListWith_eq ih (all_call.1 h).2]
    rfl
  modulo value modulus ih₁ ih₂ h := by
    obtain ⟨-, h₁, h₂⟩ := all_modulo.1 h
    rw [evalWith, eval, ih₁ h₁, ih₂ h₂]
  deriv arg axis _ _ := rfl
  select cond whenTrue whenFalse ihc ih₁ ih₂ h := by
    obtain ⟨-, hc, h₁, h₂⟩ := all_select.1 h
    rw [evalWith, eval, ihc hc, ih₁ h₁, ih₂ h₂]
  random key ihcounters iht ihs h := by
    obtain ⟨⟨x, y, z⟩, channel, timeStep, seed⟩ := key
    obtain ⟨-, hcounters, ht, hs⟩ := all_random.1 h
    have hx : x.evalWith given env = x.eval env := ihcounters .x (hcounters .x)
    have hy : y.evalWith given env = y.eval env := ihcounters .y (hcounters .y)
    have hz : z.evalWith given env = z.eval env := ihcounters .z (hcounters .z)
    refine h.self.getD ?_
    rw [eval, hx, hy, hz, iht ht, ihs hs]
  const value _ := rfl
  greater lhs rhs ih₁ ih₂ h := by
    obtain ⟨h₁, h₂⟩ := Cond.all_greater.1 h
    rw [Cond.evalWith, Cond.eval, ih₁ h₁, ih₂ h₂]
  all conds ih h := evalAllWith_eq ih (Cond.all_all.1 h)

/-- Giving results that are the usual ones changes nothing. -/
theorem evalWith_eq_eval {e : Expr K} (h : e.All (GivesUsual given env)) :
    e.evalWith given env = e.eval env :=
  Expr.induct usualSteps e h

end Expr

end Electrokinetics
