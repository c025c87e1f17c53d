/-
**Normal form keeps values.**

Every simplification that the building functions make is an equation of exact arithmetic, so what is
built has the value that the plain node over the same parts has.  Sums and products are treated
alike: both combine the values of a list by an operation for which neither grouping nor order
matters, and opening nested nodes or collecting the numbers is regrouping and reordering.

Main definitions:

* `Pools` — an operation for which grouping and order do not matter;
* `Pooled` — what a list of expressions comes to under an operation;
* `Meaning` — values given to sums and products by their parts, by evaluation or otherwise.

Main results:

* `Meaning.add`, `Meaning.mul` — building keeps every such value;
* `Expr.keeps_add`, `Expr.keeps_mul`, `Expr.keeps_piecewise`, `Cond.keeps_and`, … — one for each
  building function.
-/

import Electrokinetics.Proofs.Expr.Keeps
import Electrokinetics.Proofs.Expr.Same

set_option relaxedAutoImplicit false
set_option autoImplicit false

namespace Electrokinetics

/-! ### Pooling values -/

/-- Grouping and order do not matter for an operation, and it has a unit. -/
structure Pools {K : Type} (op : K → K → K) (unit : K) : Prop where
  assoc : ∀ a b c, op (op a b) c = op a (op b c)
  comm : ∀ a b, op a b = op b a
  unit_op : ∀ a, op unit a = a

namespace Pools

variable {K : Type} {op : K → K → K} {unit : K}

theorem op_unit (h : Pools op unit) (a : K) : op a unit = a := by
  rw [h.comm, h.unit_op]

theorem left_comm (h : Pools op unit) (a b c : K) : op a (op b c) = op b (op a c) := by
  rw [← h.assoc, h.comm a b, h.assoc]

theorem foldl_eq (h : Pools op unit) (values : List K) (a : K) :
    values.foldl op a = op a (values.foldl op unit) := by
  induction values generalizing a with
  | nil => exact (h.op_unit a).symm
  | cons b values ih =>
      rw [List.foldl_cons, List.foldl_cons, ih, ih (op unit b), h.unit_op, h.assoc]

end Pools

/-- The values that a relation gives to some expressions come to `s` under an operation. -/
inductive Pooled {K : Type} (op : K → K → K) (unit : K) (R : Expr K → K → Prop) :
    List (Expr K) → K → Prop
  | nil : Pooled op unit R [] unit
  | cons {e : Expr K} {es : List (Expr K)} {a s : K} :
      R e a → Pooled op unit R es s → Pooled op unit R (e :: es) (op a s)

namespace Pooled

variable {K : Type} {op : K → K → K} {unit : K} {R R' : Expr K → K → Prop} {e : Expr K}
  {es fs : List (Expr K)} {a s t : K}

theorem singleton (hop : Pools op unit) (h : R e a) : Pooled op unit R [e] a := by
  rw [← hop.op_unit a]
  exact .cons h .nil

theorem singleton_inv (hop : Pools op unit) (h : Pooled op unit R [e] s) : R e s := by
  cases h with
  | cons ha hnil =>
      cases hnil
      rw [hop.op_unit]
      exact ha

theorem nil_inv (h : Pooled op unit R [] s) : s = unit := by
  cases h
  rfl

theorem append (hop : Pools op unit) (hs : Pooled op unit R es s) (ht : Pooled op unit R fs t) :
    Pooled op unit R (es ++ fs) (op s t) := by
  induction hs with
  | nil =>
      rw [hop.unit_op]
      exact ht
  | cons ha _ ih =>
      rw [hop.assoc]
      exact .cons ha ih

/-- Opening every expression into a list that comes to its value leaves the total. -/
theorem flatMap (hop : Pools op unit) {f : Expr K → List (Expr K)}
    (hf : ∀ e a, R e a → Pooled op unit R (f e) a) (h : Pooled op unit R es s) :
    Pooled op unit R (es.flatMap f) s := by
  induction h with
  | nil => exact .nil
  | cons ha _ ih => exact (hf _ _ ha).append hop ih

/-- Replacing every expression by one with its value leaves the total. -/
theorem map {f : Expr K → Expr K} (hf : ∀ e ∈ es, ∀ a, R e a → R' (f e) a)
    (h : Pooled op unit R es s) : Pooled op unit R' (es.map f) s := by
  induction h with
  | nil => exact .nil
  | cons ha _ ih =>
      exact .cons (hf _ List.mem_cons_self _ ha) (ih fun e he => hf e (List.mem_cons_of_mem _ he))

theorem of_map {ι : Type} {items : List ι} {f : ι → Expr K} {v : ι → K}
    (h : ∀ i ∈ items, R (f i) (v i)) :
    Pooled op unit R (items.map f) ((items.map v).foldr op unit) := by
  induction items with
  | nil => exact .nil
  | cons i items ih =>
      exact .cons (h i List.mem_cons_self) (ih fun j hj => h j (List.mem_cons_of_mem _ hj))

/-- The numbers of a list can be collected at either end. -/
theorem split (hop : Pools op unit) (hnumber : ∀ a b, R (.num a) b → a = b)
    (h : Pooled op unit R es s) :
    ∃ t, Pooled op unit R (Expr.symbolic es) t ∧
      s = op t ((Expr.numbers es).foldl op unit) := by
  induction h with
  | nil => exact ⟨unit, .nil, (hop.unit_op unit).symm⟩
  | @cons e es a s ha _ ih =>
      obtain ⟨t, ht, rfl⟩ := ih
      by_cases hnum : ∃ b, e = .num b
      · obtain ⟨b, rfl⟩ := hnum
        obtain rfl : b = a := hnumber b a ha
        refine ⟨t, ht, ?_⟩
        have hnumbers : Expr.numbers (.num b :: es) = b :: Expr.numbers es := rfl
        -- The number moves past everything that is not one, to the other numbers.
        rw [hnumbers, List.foldl_cons, hop.foldl_eq _ (op unit b), hop.unit_op, hop.left_comm]
      · have hsymbolic : Expr.symbolic (e :: es) = e :: Expr.symbolic es := by
          cases e <;> first | rfl | exact absurd ⟨_, rfl⟩ hnum
        have hnumbers : Expr.numbers (e :: es) = Expr.numbers es := by
          cases e <;> first | rfl | exact absurd ⟨_, rfl⟩ hnum
        rw [hsymbolic, hnumbers, ← hop.assoc]
        exact ⟨op a t, .cons ha ht, rfl⟩

section Evaluation

variable [Scalar K] {source : Expr K → Except (EvalError K) K}

theorem iff_evalListFrom (hop : Pools op unit) :
    Pooled op unit (fun e a => e.evalFrom source = .ok a) es s ↔
      ∃ values, Expr.evalListFrom source es = .ok values ∧ values.foldl op unit = s := by
  constructor
  · intro h
    induction h with
    | nil => exact ⟨[], rfl, rfl⟩
    | @cons e es a s ha _ ih =>
        obtain ⟨values, hvalues, rfl⟩ := ih
        refine ⟨a :: values, Expr.evalListFrom_cons_eq_ok_iff.2 ⟨a, values, ha, hvalues, rfl⟩, ?_⟩
        rw [List.foldl_cons, hop.foldl_eq, hop.unit_op]
  · rintro ⟨values, hvalues, rfl⟩
    induction es generalizing values with
    | nil =>
        cases hvalues
        exact .nil
    | cons e es ih =>
        obtain ⟨a, rest, ha, hrest, rfl⟩ := Expr.evalListFrom_cons_eq_ok_iff.1 hvalues
        rw [List.foldl_cons, hop.foldl_eq, hop.unit_op]
        exact .cons ha (ih rest hrest)

/-- The node that folds the values of its parts has the value that the parts come to. -/
theorem bind_evalListFrom_eq_ok_iff (hop : Pools op unit) :
    (Expr.evalListFrom source es >>= fun values => .ok (values.foldl op unit)) = .ok s ↔
      Pooled op unit (fun e a => e.evalFrom source = .ok a) es s := by
  rw [iff_evalListFrom hop, bind_eq_ok]
  simp only [Except.ok.injEq]

end Evaluation

end Pooled

/-- A relation gives to numbers their values, and to sums and products what the values of their parts
come to. -/
structure Meaning {K : Type} [Scalar K] (R : Expr K → K → Prop) : Prop where
  num {a b : K} : R (.num a) b ↔ a = b
  sum {es : List (Expr K)} {s : K} : R (.sum es) s ↔ Pooled Scalar.add Scalar.zero R es s
  prod {es : List (Expr K)} {s : K} : R (.prod es) s ↔ Pooled Scalar.mul Scalar.one R es s

theorem Meaning.number {K : Type} [Scalar K] {R : Expr K → K → Prop} (hR : Meaning R) (a : K) :
    R (.num a) a := hR.num.2 rfl

/-! ### Building functions of any scalars -/

section Build

variable {K : Type} [Scalar K] {env : Env K}

namespace Expr

omit [Scalar K] in
theorem mapM_asNum?_eq_some {es : List (Expr K)} {values : List K}
    (h : es.mapM asNum? = some values) : es = values.map num := by
  induction es generalizing values with
  | nil =>
      cases h
      rfl
  | cons e es ih =>
      simp only [List.mapM_cons, Option.bind_eq_bind, Option.bind_eq_some_iff, Option.pure_def,
        Option.some.injEq] at h
      obtain ⟨a, ha, rest, hrest, rfl⟩ := h
      rw [ih hrest, List.map_cons]
      cases e <;> cases ha
      rfl

theorem evalList_map_num (values : List K) : evalList env (values.map num) = .ok values := by
  induction values with
  | nil => rfl
  | cons a values ih => exact evalList_cons_eq_ok_iff.2 ⟨a, values, rfl, ih, rfl⟩

theorem value?_of_foldCall? {f : Func} {args : List K} {v : K} (h : foldCall? f args = some v) :
    f.value? args = some v := by
  unfold foldCall? at h
  split at h
  · split at h
    · exact h
    · cases h
  · exact h

theorem keeps_apply (f : Func) (es : List (Expr K)) :
    Keeps ((call f es).eval env) ((apply f es).eval env) := by
  unfold apply
  split
  · rename_i v hv
    obtain ⟨values, hvalues, hfold⟩ := Option.bind_eq_some_iff.1 hv
    obtain rfl := mapM_asNum?_eq_some hvalues
    intro a ha
    obtain ⟨values', hvalues', ha⟩ := bind_eq_ok.1 ha
    obtain rfl : values = values' := Except.ok.inj ((evalList_map_num values).symm.trans hvalues')
    rw [value?_of_foldCall? hfold] at ha
    exact ha
  · exact Keeps.refl _

theorem keeps_mod (value modulus : Expr K) :
    Keeps ((modulo value modulus).eval env) ((mod value modulus).eval env) := by
  unfold mod
  split
  · rename_i a m
    split
    · exact Keeps.refl _
    · rename_i hm
      intro v hv
      obtain ⟨m', hm', hv⟩ := bind_eq_ok.1 hv
      obtain rfl : m = m' := Except.ok.inj hm'
      rw [if_neg hm] at hv
      exact hv
  · exact Keeps.refl _

theorem keeps_diff (e : Expr K) (axis : Axis) :
    Keeps ((deriv e axis).eval env) ((diff e axis).eval env) := keeps_deriv axis _

end Expr

namespace Cond

theorem keeps_gt (e f : Expr K) : Keeps ((greater e f).eval env) ((gt e f).eval env) := by
  unfold gt
  split
  · exact Keeps.refl _
  · exact Keeps.refl _

theorem evalAll_append (cs ds : List (Cond K)) :
    evalAll env (cs ++ ds) = (evalAll env cs >>= fun b => if b then evalAll env ds else .ok false) := by
  induction cs with
  | nil => rfl
  | cons c cs ih =>
      simp only [List.cons_append, evalAll, ih]
      cases c.eval env with
      | error e => rfl
      | ok b => cases b <;> rfl

theorem evalAll_singleton (c : Cond K) : evalAll env [c] = c.eval env := by
  rw [evalAll]
  cases c.eval env with
  | error e => rfl
  | ok b => cases b <;> rfl

theorem keeps_conjuncts (c : Cond K) : Keeps (c.eval env) (evalAll env c.conjuncts) := by
  unfold conjuncts
  split
  · exact Keeps.refl _
  · exact Keeps.refl _
  · rw [evalAll_singleton]
    exact Keeps.refl _

theorem keeps_flatMap_conjuncts (cs : List (Cond K)) :
    Keeps (evalAll env cs) (evalAll env (cs.flatMap conjuncts)) := by
  induction cs with
  | nil => exact Keeps.refl _
  | cons c cs ih =>
      rw [List.flatMap_cons, evalAll_append]
      refine (keeps_conjuncts c).bind fun b _ => ?_
      cases b with
      | true => exact ih
      | false => exact Keeps.refl _

theorem eval_eq_false_of_isFalse {c : Cond K} (h : c.isFalse = true) : c.eval env = .ok false := by
  cases c with
  | const value =>
      cases value with
      | true => cases h
      | false => rfl
  | greater lhs rhs => cases h
  | all conds => cases h

/-- A conjunction with the truth value false in it has no other value. -/
theorem evalAll_eq_false {cs : List (Cond K)} {b : Bool} (hfalse : cs.any isFalse = true)
    (h : evalAll env cs = .ok b) : b = false := by
  induction cs with
  | nil => cases hfalse
  | cons c cs ih =>
      -- Evaluation may end before it comes to the truth value, but it ends with a false condition.
      obtain ⟨d, hd, h⟩ := bind_eq_ok.1 h
      cases d with
      | false => exact (Except.ok.inj h).symm
      | true =>
          refine ih ?_ h
          rw [List.any_cons, Bool.or_eq_true] at hfalse
          refine hfalse.resolve_left fun hc => ?_
          rw [eval_eq_false_of_isFalse hc] at hd
          cases hd

theorem keeps_and (cs : List (Cond K)) : Keeps ((all cs).eval env) ((and cs).eval env) := by
  change Keeps (evalAll env cs) _
  unfold and
  split
  · rename_i hfalse
    intro b hb
    rw [evalAll_eq_false hfalse hb]
    rfl
  · refine (keeps_flatMap_conjuncts cs).trans ?_
    split
    · rename_i hnone
      rw [hnone]
      exact Keeps.refl _
    · rename_i hone
      rw [hone, evalAll_singleton]
      exact Keeps.refl _
    · exact Keeps.refl _

end Cond

end Build

/-! ### Sums and products of exact scalars -/

section Ring

variable {K : Type} [OrderedField K] [Scalar K] [RingScalar K] {env : Env K}

theorem pools_add : Pools (K := K) Scalar.add Scalar.zero where
  assoc a b c := by simp only [RingScalar.add_eq, add_assoc]
  comm a b := by rw [RingScalar.add_eq, RingScalar.add_eq, add_comm]
  unit_op a := by rw [RingScalar.add_eq, Scalar.zero_eq, zero_add]

theorem pools_mul : Pools (K := K) Scalar.mul Scalar.one where
  assoc a b c := by simp only [RingScalar.mul_eq, mul_assoc]
  comm a b := by rw [RingScalar.mul_eq, RingScalar.mul_eq, mul_comm]
  unit_op a := by rw [RingScalar.mul_eq, Scalar.one_eq, one_mul]

namespace Meaning

variable {R : Expr K → K → Prop} (hR : Meaning R) {e : Expr K} {es : List (Expr K)} {a s t c : K}

include hR

theorem pooled_addends (h : R e a) : Pooled Scalar.add Scalar.zero R e.addends a := by
  cases e with
  | sum terms => exact hR.sum.1 h
  | _ => exact Pooled.singleton pools_add h

theorem pooled_factors (h : R e a) : Pooled Scalar.mul Scalar.one R e.factors a := by
  cases e with
  | prod es => exact hR.prod.1 h
  | _ => exact Pooled.singleton pools_mul h

/-- A sum of no or of one term needs no node. -/
theorem of_pooled_add (es : List (Expr K)) : Pooled Scalar.add Scalar.zero R es s →
    R (match es with
      | [] => Expr.zero
      | [e] => e
      | es => .sum es) s := by
  intro h
  match es, h with
  | [], h => exact hR.num.2 h.nil_inv.symm
  | [_], h => exact h.singleton_inv pools_add
  | _ :: _ :: _, h => exact hR.sum.2 h

/-- What is built has the value of the plain sum. -/
theorem add (h : Pooled Scalar.add Scalar.zero R es s) : R (Expr.add es) s := by
  have hopen := h.flatMap pools_add fun _ _ => hR.pooled_addends
  obtain ⟨t, ht, rfl⟩ := hopen.split pools_add fun _ _ => hR.num.1
  refine hR.of_pooled_add _ (ht.append pools_add ?_)
  split
  · rename_i hzero
    rw [Scalar.isZero_iff.1 hzero, ← Scalar.zero_eq]
    exact .nil
  · exact Pooled.singleton pools_add (hR.number _)

/-- A product with the coefficient one, and one of a single factor, need no coefficient and no
node. -/
theorem of_pooled_mul (es : List (Expr K)) : Pooled Scalar.mul Scalar.one R es t →
    R (match es with
      | [] => .num c
      | e :: es =>
        if Scalar.eq c Scalar.one then
          match es with
          | [] => e
          | _ => .prod (e :: es)
        else .prod (.num c :: e :: es)) (Scalar.mul t c) := by
  intro h
  match es, h with
  | [], h =>
      rw [h.nil_inv, pools_mul.unit_op]
      exact hR.number c
  | e :: es, h =>
      by_cases hone : Scalar.eq c Scalar.one = true
      · have hvalue : Scalar.mul t c = t := by rw [Scalar.eq_iff.1 hone, pools_mul.op_unit]
        rw [hvalue]
        simp only [hone, if_true]
        match es, h with
        | [], h => exact h.singleton_inv pools_mul
        | _ :: _, h => exact hR.prod.2 h
      · simp only [hone, Bool.false_eq_true, if_false]
        rw [pools_mul.comm]
        exact hR.prod.2 (.cons (hR.number c) h)

/-- What is built has the value of the plain product. -/
theorem mul (h : Pooled Scalar.mul Scalar.one R es s) : R (Expr.mul es) s := by
  have hopen := h.flatMap pools_mul fun _ _ => hR.pooled_factors
  obtain ⟨t, ht, rfl⟩ := hopen.split pools_mul fun _ _ => hR.num.1
  unfold Expr.mul
  simp only
  split
  · rename_i hzero
    rw [Scalar.isZero_iff.1 hzero, RingScalar.mul_eq, mul_zero, ← Scalar.zero_eq]
    exact hR.number Scalar.zero
  · exact hR.of_pooled_mul _ ht

end Meaning

namespace Expr

/-- Evaluation gives values by parts, whatever its sources are. -/
theorem meaning_evalFrom (source : Expr K → Except (EvalError K) K) :
    Meaning fun (e : Expr K) a => e.evalFrom source = .ok a where
  num := ⟨Except.ok.inj, congrArg Except.ok⟩
  sum := Pooled.bind_evalListFrom_eq_ok_iff pools_add
  prod := Pooled.bind_evalListFrom_eq_ok_iff pools_mul

theorem meaning_eval (env : Env K) : Meaning fun (e : Expr K) a => e.eval env = .ok a := by
  have h := meaning_evalFrom fun t : Expr K => t.eval env
  simp only [evalFrom_eval] at h
  exact h

theorem keeps_add (es : List (Expr K)) : Keeps ((sum es).eval env) ((add es).eval env) :=
  fun _ hs => (meaning_eval env).add ((meaning_eval env).sum.1 hs)

theorem keeps_mul (es : List (Expr K)) : Keeps ((prod es).eval env) ((mul es).eval env) :=
  fun _ hs => (meaning_eval env).mul ((meaning_eval env).prod.1 hs)

/-! ### Powers with a number -/

theorem keeps_power_one (hpow : ∀ a : K, Scalar.pow a 1 = a) {b : Expr K} {c : K}
    (hc : Scalar.eq c Scalar.one = true) : Keeps ((power b (num c)).eval env) (b.eval env) := by
  intro v hv
  obtain ⟨x, y, hx, hy, rfl⟩ := eval_power_eq_ok_iff.1 hv
  obtain rfl : c = y := Except.ok.inj hy
  rw [Scalar.eq_iff.1 hc, Scalar.one_eq, hpow]
  exact hx

theorem keeps_power_zero (hpow : ∀ a : K, Scalar.pow a 0 = 1) {b : Expr K} {c : K}
    (hc : Scalar.isZero c = true) :
    Keeps ((power b (num c)).eval env) ((one : Expr K).eval env) := by
  intro v hv
  obtain ⟨x, y, -, hy, rfl⟩ := eval_power_eq_ok_iff.1 hv
  obtain rfl : c = y := Except.ok.inj hy
  rw [Scalar.isZero_iff.1 hc, hpow, ← Scalar.one_eq]
  rfl

/-- The base of a power that is a field read is not a number, so that only the exponent matters. -/
theorem keeps_pow_access (hone : ∀ a : K, Scalar.pow a 1 = a) (hzero : ∀ a : K, Scalar.pow a 0 = 1)
    (a : Access) (e : Expr K) :
    Keeps ((power (access a) e).eval env) ((pow (access a) e).eval env) := by
  cases e with
  | num c =>
      simp only [pow]
      split_ifs with hc hc'
      · exact keeps_power_one hone hc
      · exact keeps_power_zero hzero hc'
      · exact Keeps.refl _
  | _ => exact Keeps.refl _

end Expr

end Ring

/-! ### Powers and case distinctions of exact scalars -/

variable {K : Type} [OrderedField K] [Scalar K] [ExactScalar K] {env : Env K}

namespace Expr

theorem keeps_one_power {c : K} {e : Expr K} (hc : Scalar.eq c Scalar.one = true) :
    Keeps ((power (num c) e).eval env) ((one : Expr K).eval env) := by
  intro v hv
  obtain ⟨x, y, hx, -, rfl⟩ := eval_power_eq_ok_iff.1 hv
  obtain rfl : c = x := Except.ok.inj hx
  rw [Scalar.eq_iff.1 hc, Scalar.one_eq, ExactScalar.one_pow, ← Scalar.one_eq]
  rfl

theorem keeps_pow (b e : Expr K) : Keeps ((power b e).eval env) ((pow b e).eval env) := by
  unfold pow
  split
  -- Two numbers: either the exponent decides, or the power is computed.
  · split_ifs with hone hzero
    · exact keeps_power_one ExactScalar.pow_one hone
    · exact keeps_power_zero ExactScalar.pow_zero hzero
    · exact Keeps.refl _
  · split_ifs with hone hzero
    · exact keeps_power_one ExactScalar.pow_one hone
    · exact keeps_power_zero ExactScalar.pow_zero hzero
    · exact Keeps.refl _
  · split_ifs with hone
    · exact keeps_one_power hone
    · exact Keeps.refl _
  · exact Keeps.refl _

theorem keeps_piecewise (c : Cond K) (e f : Expr K) :
    Keeps ((select c e f).eval env) ((piecewise c e f).eval env) := by
  unfold piecewise
  split
  · exact Keeps.refl _
  · exact Keeps.refl _
  · split
    · rename_i hsame
      -- Both branches are the same expression, so the condition only has to have a value.
      obtain rfl := eq_of_same hsame
      intro v hv
      obtain ⟨b, -, hv⟩ := bind_eq_ok.1 hv
      rw [ite_self] at hv
      exact hv
    · exact Keeps.refl _

end Expr

end Electrokinetics
