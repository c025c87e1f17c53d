/-
**Transformations keep values.**

A transformation replaces some nodes and builds those above them again.  If every replacement has
the value of the node that it stands for, and whatever is read and not replaced reads the same, then
the whole tree has the value that it had.  The two sides may be evaluated in different environments:
this is how a tree with its reads moved is compared with the tree at another cell.  More generally the
value of the tree may come from any source, so that the replacements do not stand for the nodes but
for what these are to mean.

Main definitions:

* `Expr.KeepsAt` — what a transformation does at a node keeps the value;
* `Expr.KeepsFrom` — likewise for a value from a source.

Main results:

* `Expr.keeps_transform_from`, `Expr.keeps_transform` — a transformation that keeps values at every
  node keeps that of the tree;
* `Expr.keeps_rebuild` — building a tree again keeps its value;
* `Expr.normalForm_keeps_values` — so does every single building function.
-/

import Electrokinetics.Proofs.Expr.Nodes
import Electrokinetics.Proofs.Expr.NormalForm
import Electrokinetics.Proofs.Scalar.Real

set_option relaxedAutoImplicit false
set_option autoImplicit false

namespace Electrokinetics

namespace Expr

/-! ### What a transformation does at a node -/

section KeepsAt

variable {K : Type} [Scalar K] {env env' : Env K}

/-- Whether an expression reads its value from the environment. -/
def isRead : Expr K → Bool
  | .symbol _ => true
  | .access _ => true
  | .counter _ => true
  | _ => false

/-- What a transformation does at a node keeps the value: its replacement does, and what is read and
not replaced reads the same. -/
def KeepsAt (f : Expr K → Option (Expr K)) (env env' : Env K) (e : Expr K) : Prop :=
  match f e with
  | some e' => Keeps (e.eval env) (e'.eval env')
  | none => e.isRead = true → Keeps (e.eval env) (e.eval env')

variable {f : Expr K → Option (Expr K)} {source : Expr K → Except (EvalError K) K} {e : Expr K}

/-- What a transformation does at a node keeps the value that the node has from a source: its
replacement does, and what the source gives and is not replaced has the given value. -/
def KeepsFrom (f : Expr K → Option (Expr K)) (source : Expr K → Except (EvalError K) K) (env : Env K)
    (e : Expr K) : Prop :=
  match f e with
  | some e' => Keeps (e.evalFrom source) (e'.eval env)
  | none => e.isSourced = true → Keeps (source e) (e.eval env)

/-- What a transformation leaves of a node keeps the value. -/
theorem KeepsFrom.getD {e' : Expr K} (h : KeepsFrom f source env e)
    (hrebuilt : f e = none → Keeps (e.evalFrom source) (e'.eval env)) :
    Keeps (e.evalFrom source) (((f e).getD e').eval env) := by
  unfold KeepsFrom at h
  cases hfe : f e with
  | some u =>
      rw [hfe] at h
      exact h
  | none => exact hrebuilt hfe

theorem KeepsFrom.of_sourced (h : KeepsFrom f source env e) (hf : f e = none)
    (hsourced : e.isSourced = true) : Keeps (source e) (e.eval env) := by
  unfold KeepsFrom at h
  rw [hf] at h
  exact h hsourced

/-- A derivative has no value, so that nothing has to be known of one that is not replaced. -/
theorem KeepsAt.keepsFrom (h : KeepsAt f env env' e) :
    KeepsFrom f (fun t => t.eval env) env' e := by
  unfold KeepsAt at h
  unfold KeepsFrom
  cases hfe : f e with
  | some u =>
      rw [hfe] at h
      rw [evalFrom_eval]
      exact h
  | none =>
      rw [hfe] at h
      intro hsourced
      cases e with
      | symbol s => exact h rfl
      | access a => exact h rfl
      | counter axis => exact h rfl
      | deriv arg axis => exact keeps_deriv axis _
      | _ => cases hsourced

theorem keeps_transformList {es : List (Expr K)}
    (ih : ∀ e ∈ es, e.All (KeepsFrom f source env) →
      Keeps (e.evalFrom source) ((e.transform f).eval env))
    (h : ∀ e ∈ es, e.All (KeepsFrom f source env)) :
    Keeps (evalListFrom source es) (evalList env (Expr.transformList f es)) := by
  rw [transformList_eq]
  exact keeps_evalList_map fun e he => ih e he (h e he)

end KeepsAt

/-! ### Whole trees -/

variable {K : Type} [OrderedField K] [Scalar K] [ExactScalar K] {env env' : Env K}
  {f : Expr K → Option (Expr K)} {source : Expr K → Except (EvalError K) K}

/-- The induction behind `Expr.keeps_transform_from`. -/
theorem transformSteps : Expr.InductionSteps (K := K)
    (fun e => e.All (KeepsFrom f source env) → Keeps (e.evalFrom source) ((e.transform f).eval env))
    (fun c => c.All (KeepsFrom f source env) →
      Keeps (c.evalFrom source) ((c.transform f).eval env)) where
  num value h := h.self.getD fun _ => Keeps.refl _
  symbol s h := h.self.getD fun hf => h.self.of_sourced hf rfl
  access a h := h.self.getD fun hf => h.self.of_sourced hf rfl
  counter axis h := h.self.getD fun hf => h.self.of_sourced hf rfl
  sum terms ih h := by
    obtain ⟨hself, hterms⟩ := all_sum.1 h
    exact hself.getD fun _ => (keeps_sum (keeps_transformList ih hterms)).trans (keeps_add _)
  prod factors ih h := by
    obtain ⟨hself, hfactors⟩ := all_prod.1 h
    exact hself.getD fun _ => (keeps_prod (keeps_transformList ih hfactors)).trans (keeps_mul _)
  power base exponent ih₁ ih₂ h := by
    obtain ⟨hself, h₁, h₂⟩ := all_power.1 h
    exact hself.getD fun _ => (keeps_power (ih₁ h₁) (ih₂ h₂)).trans (keeps_pow _ _)
  call g args ih h := by
    obtain ⟨hself, hargs⟩ := all_call.1 h
    exact hself.getD fun _ => (keeps_call g (keeps_transformList ih hargs)).trans (keeps_apply g _)
  modulo value modulus ih₁ ih₂ h := by
    obtain ⟨hself, h₁, h₂⟩ := all_modulo.1 h
    exact hself.getD fun _ => (keeps_modulo (ih₁ h₁) (ih₂ h₂)).trans (keeps_mod _ _)
  deriv arg axis _ h := h.self.getD fun hf => (h.self.of_sourced hf rfl).trans (keeps_deriv axis _)
  select cond whenTrue whenFalse ihc ih₁ ih₂ h := by
    obtain ⟨hself, hc, h₁, h₂⟩ := all_select.1 h
    exact hself.getD fun _ => (keeps_select (ihc hc) (ih₁ h₁) (ih₂ h₂)).trans (keeps_piecewise _ _ _)
  random key ihc iht ihs h := by
    obtain ⟨⟨x, y, z⟩, channel, t, s⟩ := key
    obtain ⟨hself, hc, ht, hs⟩ := all_random.1 h
    refine hself.getD fun _ => keeps_random rfl (fun axis => ?_) (iht ht) (ihs hs)
    cases axis with
    | x => exact ihc .x (hc .x)
    | y => exact ihc .y (hc .y)
    | z => exact ihc .z (hc .z)
  const value _ := Keeps.refl _
  greater lhs rhs ih₁ ih₂ h := by
    obtain ⟨h₁, h₂⟩ := Cond.all_greater.1 h
    exact (Cond.keeps_greater (ih₁ h₁) (ih₂ h₂)).trans (Cond.keeps_gt _ _)
  all conds ih h := by
    rw [Cond.transform, Cond.transformList_eq]
    exact (Cond.keeps_all fun c hc => ih c hc (Cond.all_all.1 h c hc)).trans (Cond.keeps_and _)

/-- A transformation keeps the value that a tree has from a source if it keeps such values at every
node. -/
theorem keeps_transform_from {e : Expr K} (h : e.All (KeepsFrom f source env)) :
    Keeps (e.evalFrom source) ((e.transform f).eval env) :=
  Expr.induct transformSteps e h

/-- A transformation keeps the value of a tree if it keeps values at every node. -/
theorem keeps_transform {e : Expr K} (h : e.All (KeepsAt f env env')) :
    Keeps (e.eval env) ((e.transform f).eval env') := by
  rw [← evalFrom_eval]
  exact keeps_transform_from (h.mono fun _ => KeepsAt.keepsFrom)

/-- Building a tree again keeps its value. -/
theorem keeps_rebuild (e : Expr K) : Keeps (e.eval env) (e.rebuild.eval env) :=
  keeps_transform fun _ _ _ => Keeps.refl _

/-- Normal form keeps values: a tree built again from the root has the value that it had, and each
building function gives what has the value of the plain node over the same parts. -/
theorem normalForm_keeps_values (env : Env K) :
    (∀ e : Expr K, Keeps (e.eval env) (e.rebuild.eval env)) ∧
    (∀ es : List (Expr K), Keeps ((sum es).eval env) ((add es).eval env)) ∧
    (∀ es : List (Expr K), Keeps ((prod es).eval env) ((mul es).eval env)) ∧
    (∀ b e : Expr K, Keeps ((power b e).eval env) ((pow b e).eval env)) ∧
    (∀ e : Expr K, Keeps ((call .sqrt [e]).eval env) (e.sqrt.eval env)) ∧
    (∀ e : Expr K, Keeps ((call .abs [e]).eval env) (e.abs.eval env)) ∧
    (∀ a b : Expr K, Keeps ((call .min [a, b]).eval env) ((a.min b).eval env)) ∧
    (∀ a b : Expr K, Keeps ((call .max [a, b]).eval env) ((a.max b).eval env)) ∧
    (∀ a m : Expr K, Keeps ((modulo a m).eval env) ((a.mod m).eval env)) ∧
    (∀ (e : Expr K) (axis : Axis), Keeps ((deriv e axis).eval env) ((e.diff axis).eval env)) ∧
    (∀ (c : Cond K) (e f : Expr K),
      Keeps ((select c e f).eval env) ((piecewise c e f).eval env)) ∧
    (∀ a b : Expr K, Keeps ((Cond.greater a b).eval env) ((Cond.gt a b).eval env)) ∧
    (∀ cs : List (Cond K), Keeps ((Cond.all cs).eval env) ((Cond.and cs).eval env)) := by
  refine ⟨keeps_rebuild, keeps_add, keeps_mul, keeps_pow, fun e => keeps_apply _ _,
    fun e => keeps_apply _ _, fun a b => keeps_apply _ _, fun a b => keeps_apply _ _, keeps_mod,
    keeps_diff, keeps_piecewise, Cond.keeps_gt, Cond.keeps_and⟩

/-- A nested sum with two numbers, over real numbers, where every read gives four. -/
theorem eval_rebuild_nested_sum :
    (rebuild (.sum [.num 1, .sum [.num 2, .access ⟨"c", 0, 0⟩]]) : Expr ℝ).eval
      (.ofFields fun _ _ _ => some 4) = .ok 7 := by
  refine (normalForm_keeps_values _).1 _ _ ?_
  have hfold : Scalar.add (Scalar.add Scalar.zero (1 : ℝ))
      (Scalar.add (Scalar.add Scalar.zero 2) 4) = 7 := by
    simp only [ExactScalar.add_eq, Scalar.zero_eq]
    norm_num
  rw [← hfold]
  rfl

end Expr

end Electrokinetics
