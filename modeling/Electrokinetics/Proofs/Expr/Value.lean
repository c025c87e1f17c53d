/-
**Values of built expressions.**

The operators on expressions simplify as they build.  Over exact scalars this cannot be seen in the
value: the sum of two expressions has the sum of their values, and so on for every operator.  This
holds of evaluation and of every other relation that gives values to sums and products by their
parts.

Main results:

* `Meaning.add_map`, `Meaning.add_pair`, `Meaning.sub`, … — the value of each operator;
* `Expr.eval_add_map`, `Expr.eval_add`, `Expr.eval_sub`, … — the same for evaluation;
* `Expr.eval_sqrt`, `Expr.eval_abs`, `Expr.eval_min`, `Expr.eval_max` — the values of functions;
* `Cond.eval_gt`, `Cond.eval_and_map`, `Expr.eval_piecewise` — conditions and case distinctions.
-/

import Electrokinetics.Proofs.Expr.NormalForm

set_option relaxedAutoImplicit false
set_option autoImplicit false

namespace Electrokinetics

/-! ### Sums and products -/

section Ring

variable {K : Type} [OrderedField K] [Scalar K] [RingScalar K] {e f : Expr K} {a b : K} {ι : Type}
  {items : List ι} {term : ι → Expr K} {v : ι → K}

theorem Scalar.foldr_add (values : List K) : values.foldr add zero = values.sum := by
  induction values with
  | nil => exact zero_eq
  | cons a values ih => rw [List.foldr_cons, ih, RingScalar.add_eq, List.sum_cons]

theorem Scalar.foldr_mul (values : List K) : values.foldr mul one = values.prod := by
  induction values with
  | nil => exact one_eq
  | cons a values ih => rw [List.foldr_cons, ih, RingScalar.mul_eq, List.prod_cons]

namespace Meaning

variable {R : Expr K → K → Prop} (hR : Meaning R)

include hR

theorem add_map (h : ∀ i ∈ items, R (term i) (v i)) :
    R (Expr.add (items.map term)) (items.map v).sum := by
  rw [← Scalar.foldr_add]
  exact hR.add (Pooled.of_map h)

/-- A product with a factor apart from the others. -/
theorem mul_cons_map (he : R e a) (h : ∀ i ∈ items, R (term i) (v i)) :
    R (Expr.mul (e :: items.map term)) (a * (items.map v).prod) := by
  rw [← Scalar.foldr_mul, ← RingScalar.mul_eq]
  exact hR.mul (.cons he (Pooled.of_map h))

theorem mul_map (h : ∀ i ∈ items, R (term i) (v i)) :
    R (Expr.mul (items.map term)) (items.map v).prod := by
  rw [← Scalar.foldr_mul]
  exact hR.mul (Pooled.of_map h)

theorem add_pair (he : R e a) (hf : R f b) : R (e + f) (a + b) := by
  have hpooled : Pooled Scalar.add Scalar.zero R [e, f] (Scalar.add a b) :=
    .cons he (Pooled.singleton pools_add hf)
  rw [RingScalar.add_eq] at hpooled
  exact hR.add hpooled

theorem mul_pair (he : R e a) (hf : R f b) : R (e * f) (a * b) := by
  have hpooled := Pooled.cons he (Pooled.singleton pools_mul hf)
  rw [RingScalar.mul_eq] at hpooled
  exact hR.mul hpooled

end Meaning

namespace Expr

variable {env : Env K}

theorem eval_add_map (h : ∀ i ∈ items, (term i).eval env = .ok (v i)) :
    (add (items.map term)).eval env = .ok (items.map v).sum := (meaning_eval env).add_map h

theorem eval_mul_map (h : ∀ i ∈ items, (term i).eval env = .ok (v i)) :
    (mul (items.map term)).eval env = .ok (items.map v).prod := (meaning_eval env).mul_map h

theorem eval_mul_cons_map (he : e.eval env = .ok a) (h : ∀ i ∈ items, (term i).eval env = .ok (v i)) :
    (mul (e :: items.map term)).eval env = .ok (a * (items.map v).prod) :=
  (meaning_eval env).mul_cons_map he h

theorem eval_add (he : e.eval env = .ok a) (hf : f.eval env = .ok b) :
    (e + f).eval env = .ok (a + b) := (meaning_eval env).add_pair he hf

theorem eval_mul (he : e.eval env = .ok a) (hf : f.eval env = .ok b) :
    (e * f).eval env = .ok (a * b) := (meaning_eval env).mul_pair he hf

end Expr

end Ring

/-! ### Differences and quotients -/

variable {K : Type} [OrderedField K] [Scalar K] [ExactScalar K] {e f : Expr K} {a b : K} {ι : Type}
  {items : List ι}

namespace Meaning

variable {R : Expr K → K → Prop} (hR : Meaning R)

include hR

theorem neg (he : R e a) : R (-e) (-a) := by
  rw [← neg_one_mul, ← Scalar.negOne_eq]
  exact hR.mul_pair (hR.number Scalar.negOne) he

theorem sub (he : R e a) (hf : R f b) : R (e - f) (a - b) := by
  rw [sub_eq_add_neg]
  exact hR.add_pair he (hR.neg hf)

/-- Division by a number multiplies by its reciprocal. -/
theorem div_scalar (he : R e a) (b : K) : R (e / b) (a / b) := by
  rw [div_eq_mul_one_div, ← Scalar.one_eq, ← ExactScalar.div_eq]
  exact hR.mul_pair he (hR.number _)

end Meaning

namespace Expr

variable {env : Env K}

theorem eval_sub (he : e.eval env = .ok a) (hf : f.eval env = .ok b) :
    (e - f).eval env = .ok (a - b) := (meaning_eval env).sub he hf

theorem eval_div_scalar (he : e.eval env = .ok a) (b : K) : (e / b).eval env = .ok (a / b) :=
  (meaning_eval env).div_scalar he b

/-! ### Functions -/

omit [OrderedField K] [ExactScalar K] in
theorem eval_apply_one {g : Func} (he : e.eval env = .ok a) (hg : g.value? [a] = some b) :
    (apply g [e]).eval env = .ok b := by
  refine keeps_apply g [e] _
    (bind_eq_ok.2 ⟨[a], evalList_cons_eq_ok_iff.2 ⟨a, [], he, rfl, rfl⟩, ?_⟩)
  rw [hg]
  rfl

omit [OrderedField K] [ExactScalar K] in
theorem eval_sqrt (he : e.eval env = .ok a) : e.sqrt.eval env = .ok (Scalar.sqrt a) :=
  eval_apply_one he rfl

theorem eval_abs (he : e.eval env = .ok a) : e.abs.eval env = .ok |a| := by
  rw [← ExactScalar.abs_eq]
  exact eval_apply_one he rfl

theorem eval_min (he : e.eval env = .ok a) (hf : f.eval env = .ok b) :
    (e.min f).eval env = .ok (Min.min a b) := by
  rw [← ExactScalar.min_eq]
  exact keeps_apply .min [e, f] _ (bind_eq_ok.2 ⟨[a, b], evalList_pair he hf, rfl⟩)

theorem eval_max (he : e.eval env = .ok a) (hf : f.eval env = .ok b) :
    (e.max f).eval env = .ok (Max.max a b) := by
  rw [← ExactScalar.max_eq]
  exact keeps_apply .max [e, f] _ (bind_eq_ok.2 ⟨[a, b], evalList_pair he hf, rfl⟩)

end Expr

/-! ### Conditions and case distinctions -/

namespace Cond

variable {env : Env K} {cond : ι → Cond K} {holds : ι → Bool}

theorem eval_gt (he : e.eval env = .ok a) (hf : f.eval env = .ok b) :
    (gt e f).eval env = .ok (decide (b < a)) := by
  rw [← ExactScalar.lt_eq]
  exact keeps_gt e f _ (bind_eq_ok.2 ⟨a, he, bind_eq_ok.2 ⟨b, hf, rfl⟩⟩)

omit [OrderedField K] [ExactScalar K] in
theorem evalAll_map (h : ∀ i ∈ items, (cond i).eval env = .ok (holds i)) :
    evalAll env (items.map cond) = .ok (items.all holds) := by
  induction items with
  | nil => rfl
  | cons i items ih =>
      obtain ⟨hhead, htail⟩ := List.forall_mem_cons.1 h
      rw [List.map_cons, evalAll, hhead, List.all_cons]
      cases holds i with
      | true => exact ih htail
      | false => rfl

omit [OrderedField K] [ExactScalar K] in
theorem eval_and_map (h : ∀ i ∈ items, (cond i).eval env = .ok (holds i)) :
    (and (items.map cond)).eval env = .ok (items.all holds) :=
  keeps_and (items.map cond) _ (evalAll_map h)

end Cond

namespace Expr

variable {env : Env K} {c : Cond K} {holds : Bool}

/-- Only the branch that is taken has to have a value. -/
theorem eval_piecewise (hc : c.eval env = .ok holds)
    (hbranch : (if holds then e else f).eval env = .ok a) :
    (piecewise c e f).eval env = .ok a := by
  refine keeps_piecewise c e f _ (bind_eq_ok.2 ⟨holds, hc, ?_⟩)
  cases holds with
  | true => exact hbranch
  | false => exact hbranch

end Expr

end Electrokinetics
