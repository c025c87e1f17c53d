/-
**Values of transformed expressions, by parts.**

A transformation builds every sum and product again, and building may drop or join parts.  So the
value of a transformed expression is not found by following the built tree.  It is found on the tree
before the transformation: numbers keep their values, sums and products combine those of their parts,
and for any other node one looks at what the transformation leaves of it.  Values that are found in
this way are given by parts, so they can be computed operator by operator, and they are the values of
the transformed expression.

Main definitions:

* `Expr.isArithmetic` — numbers, sums and products;
* `Expr.TransformsTo` — the value of a transformed expression, by parts.

Main results:

* `Expr.meaning_transformsTo` — these values are given by parts;
* `Expr.TransformsTo.eval` — they are the values of the transformed expression;
* `Expr.TransformsTo.of_evalFrom`, `Expr.TransformsTo.of_eval` — a part whose values a transformation
  keeps has its value from the source, or its own.
-/

import Electrokinetics.Proofs.Expr.Nodes
import Electrokinetics.Proofs.Expr.Transform
import Electrokinetics.Proofs.Expr.Value

set_option relaxedAutoImplicit false
set_option autoImplicit false

namespace Electrokinetics

namespace Expr

section

variable {K : Type}

/-- Whether a node is a number or combines values by addition or multiplication. -/
def isArithmetic : Expr K → Bool
  | .num _ => true
  | .sum _ => true
  | .prod _ => true
  | _ => false

/-- The value of a transformed expression, found on the expression itself. -/
inductive TransformsTo [Scalar K] (f : Expr K → Option (Expr K)) (env : Env K) : Expr K → K → Prop
  | num (a : K) : TransformsTo f env (.num a) a
  | sum {es : List (Expr K)} {s : K} :
      Pooled Scalar.add Scalar.zero (TransformsTo f env) es s → TransformsTo f env (.sum es) s
  | prod {es : List (Expr K)} {s : K} :
      Pooled Scalar.mul Scalar.one (TransformsTo f env) es s → TransformsTo f env (.prod es) s
  | other {e : Expr K} {a : K} : e.isArithmetic = false → (e.transform f).eval env = .ok a →
      TransformsTo f env e a

theorem meaning_transformsTo [Scalar K] (f : Expr K → Option (Expr K)) (env : Env K) :
    Meaning (TransformsTo f env) where
  num {a b} := by
    constructor
    · intro h
      cases h with
      | num a => rfl
      | other harithmetic _ => cases harithmetic
    · rintro rfl
      exact .num a
  sum := by
    refine ⟨fun h => ?_, .sum⟩
    cases h with
    | sum h => exact h
    | other harithmetic _ => cases harithmetic
  prod := by
    refine ⟨fun h => ?_, .prod⟩
    cases h with
    | prod h => exact h
    | other harithmetic _ => cases harithmetic

end

variable {K : Type} [OrderedField K] [Scalar K] [ExactScalar K] {f : Expr K → Option (Expr K)}
  {source : Expr K → Except (EvalError K) K} {env env' : Env K}

namespace TransformsTo

omit [OrderedField K] [ExactScalar K] in
theorem eval_of_other {e : Expr K} {a : K} (h : TransformsTo f env e a)
    (hother : e.isArithmetic = false) : (e.transform f).eval env = .ok a := by
  cases h with
  | other _ h => exact h
  | _ => cases hother

/-- The induction behind `Expr.TransformsTo.eval`. -/
theorem evalSteps (hf : ∀ e : Expr K, e.isArithmetic = true → f e = none) :
    Expr.InductionSteps (K := K)
      (fun e => ∀ a, TransformsTo f env e a → (e.transform f).eval env = .ok a)
      (fun _ => True) where
  num value a h := by
    obtain rfl := (meaning_transformsTo f env).num.1 h
    rw [Expr.transform, hf _ rfl]
    rfl
  sum terms ih s h := by
    have hparts : Pooled Scalar.add Scalar.zero (fun e a => e.eval env = .ok a)
        (terms.map (transform f)) s := ((meaning_transformsTo f env).sum.1 h).map ih
    rw [Expr.transform, hf _ rfl, Option.getD_none, transformList_eq]
    exact (meaning_eval env).add hparts
  prod factors ih s h := by
    have hparts : Pooled Scalar.mul Scalar.one (fun e a => e.eval env = .ok a)
        (factors.map (transform f)) s := ((meaning_transformsTo f env).prod.1 h).map ih
    rw [Expr.transform, hf _ rfl, Option.getD_none, transformList_eq]
    exact (meaning_eval env).mul hparts
  symbol s a h := h.eval_of_other rfl
  access s a h := h.eval_of_other rfl
  counter axis a h := h.eval_of_other rfl
  power base exponent _ _ a h := h.eval_of_other rfl
  call g args _ a h := h.eval_of_other rfl
  modulo value modulus _ _ a h := h.eval_of_other rfl
  deriv arg axis _ a h := h.eval_of_other rfl
  select cond whenTrue whenFalse _ _ _ a h := h.eval_of_other rfl
  random key _ _ _ a h := h.eval_of_other rfl
  const _ := trivial
  greater _ _ _ _ := trivial
  all _ _ := trivial

/-- What is found by parts is the value of the transformed expression. -/
theorem eval (hf : ∀ e : Expr K, e.isArithmetic = true → f e = none) {e : Expr K} {a : K}
    (h : TransformsTo f env e a) : (e.transform f).eval env = .ok a :=
  Expr.induct (evalSteps hf) e a h

/-- The induction behind `Expr.TransformsTo.of_evalFrom`. -/
theorem ofEvalFromSteps :
    Expr.InductionSteps (K := K)
      (fun e => e.All (KeepsFrom f source env) → ∀ a, e.evalFrom source = .ok a →
        TransformsTo f env e a)
      (fun _ => True) where
  num value _ a h := (meaning_transformsTo f env).num.2 (Except.ok.inj h)
  sum terms ih hkeeps s h := by
    have hparts : Pooled Scalar.add Scalar.zero (TransformsTo f env) (terms.map id) s :=
      ((meaning_evalFrom source).sum.1 h).map fun e he =>
        ih e he ((all_sum.1 hkeeps).2 e he)
    rw [List.map_id] at hparts
    exact .sum hparts
  prod factors ih hkeeps s h := by
    have hparts : Pooled Scalar.mul Scalar.one (TransformsTo f env) (factors.map id) s :=
      ((meaning_evalFrom source).prod.1 h).map fun e he =>
        ih e he ((all_prod.1 hkeeps).2 e he)
    rw [List.map_id] at hparts
    exact .prod hparts
  symbol s hkeeps a h := .other rfl (keeps_transform_from hkeeps a h)
  access s hkeeps a h := .other rfl (keeps_transform_from hkeeps a h)
  counter axis hkeeps a h := .other rfl (keeps_transform_from hkeeps a h)
  power base exponent _ _ hkeeps a h := .other rfl (keeps_transform_from hkeeps a h)
  call g args _ hkeeps a h := .other rfl (keeps_transform_from hkeeps a h)
  modulo value modulus _ _ hkeeps a h := .other rfl (keeps_transform_from hkeeps a h)
  deriv arg axis _ hkeeps a h := .other rfl (keeps_transform_from hkeeps a h)
  select cond whenTrue whenFalse _ _ _ hkeeps a h := .other rfl (keeps_transform_from hkeeps a h)
  random key _ _ _ hkeeps a h := .other rfl (keeps_transform_from hkeeps a h)
  const _ := trivial
  greater _ _ _ _ := trivial
  all _ _ := trivial

/-- An expression whose values from a source are kept by a transformation has that value by parts. -/
theorem of_evalFrom {e : Expr K} {a : K} (hkeeps : e.All (KeepsFrom f source env))
    (h : e.evalFrom source = .ok a) : TransformsTo f env e a :=
  Expr.induct ofEvalFromSteps e hkeeps a h

/-- An expression that a transformation keeps the values of has its own value. -/
theorem of_eval {e : Expr K} {a : K} (hkeeps : e.All (KeepsAt f env' env))
    (h : e.eval env' = .ok a) : TransformsTo f env e a := by
  rw [← evalFrom_eval] at h
  exact of_evalFrom (hkeeps.mono fun _ => KeepsAt.keepsFrom) h

end TransformsTo

end Expr

end Electrokinetics
