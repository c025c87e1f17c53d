/-
**Grouping sums and products.**

A sum is determined by its symbolic terms, in order, and by the total of its numbers, however deep the
numbers were.  With exact coefficients a canonical tree shows both, so that a sum of sums is the sum of
everything in them.  A product is determined in the same way by its symbolic factors and by the product
of its numbers, with one difference: a coefficient of zero drops the factors.  So a group whose
coefficient is zero has lost its factors, but then the whole product is zero in every grouping.

Main definitions:

* `Expr.symbolicTerms`, `Expr.constantTerm` — what an expression contributes to a sum;
* `Expr.symbolicFactors`, `Expr.coefficient` — what it contributes to a product;
* `Expr.sumOf`, `Expr.prodOf` — sums and products in normal form.

Main results:

* `Expr.add_map_add`, `Expr.mul_map_mul` — groups make no difference;
* `Expr.mul_eq_zero` — products with a zero;
* `Expr.sums_and_products_regroup` — the laws of the operators.
-/

import Electrokinetics.Proofs.Expr.Canonical
import Electrokinetics.Proofs.Scalar.Real

set_option relaxedAutoImplicit false
set_option autoImplicit false

namespace Electrokinetics

namespace Expr

section Lists

variable {K α : Type}

theorem symbolic_flatMap (f : α → List (Expr K)) (l : List α) :
    symbolic (l.flatMap f) = l.flatMap fun a => symbolic (f a) :=
  List.filter_flatMap ..

theorem numbers_flatMap (f : α → List (Expr K)) (l : List α) :
    numbers (l.flatMap f) = l.flatMap fun a => numbers (f a) :=
  List.filterMap_flatMap ..

end Lists

variable {K : Type} [OrderedField K] [Scalar K]

/-! ### Sums -/

section Sums

variable {e : Expr K} {es ts : List (Expr K)}

/-- The terms that an expression contributes to a sum, without its number. -/
def symbolicTerms (e : Expr K) : List (Expr K) := symbolic e.addends

/-- The number that an expression contributes to a sum. -/
def constantTerm (e : Expr K) : K := (numbers e.addends).sum

/-- The expression that a list of terms in normal form stands for. -/
def sumNode : List (Expr K) → Expr K
  | [] => zero
  | [e] => e
  | es => .sum es

/-- The sum with some symbolic terms and a constant. -/
def sumOf (ts : List (Expr K)) (c : K) : Expr K :=
  sumNode (ts ++ if Scalar.isZero c then [] else [.num c])

omit [OrderedField K] in
theorem Canonical.symbolicTerms (h : e.Canonical) :
    ∀ t ∈ e.symbolicTerms, t.isSum = false ∧ t.isNum = false := by
  intro t ht
  obtain ⟨ht, hnum⟩ := mem_symbolic.1 ht
  exact ⟨(h.addends t ht).2, hnum⟩

omit [OrderedField K] in
theorem add_congr {fs : List (Expr K)} (h : es.flatMap addends = fs.flatMap addends) :
    add es = add fs := by
  unfold Expr.add
  rw [h]

variable [ExactScalar K]

theorem add_eq_sumOf (es : List (Expr K)) :
    add es = sumOf (es.flatMap symbolicTerms) (es.map constantTerm).sum := by
  have hconstant : (numbers (es.flatMap addends)).foldl Scalar.add Scalar.zero =
      (es.map constantTerm).sum := by
    rw [Scalar.foldl_add, Scalar.zero_eq, AddZeroClass.zero_add, numbers_flatMap, List.flatMap_def,
      List.sum_flatten, List.map_map]
    rfl
  change sumOf (symbolic (es.flatMap addends)) _ = _
  rw [hconstant, symbolic_flatMap]
  rfl

theorem parts_sumNode (h : ∀ e ∈ es, e.isSum = false) :
    (sumNode es).symbolicTerms = symbolic es ∧ (sumNode es).constantTerm = (numbers es).sum := by
  match es with
  | [] => exact ⟨rfl, List.sum_singleton.trans Scalar.zero_eq⟩
  | [e] =>
      rw [Expr.symbolicTerms, constantTerm, sumNode, Expr.addends_eq (h e List.mem_cons_self)]
      exact ⟨rfl, rfl⟩
  | _ :: _ :: _ => exact ⟨rfl, rfl⟩

/-- A sum in normal form shows its terms and its constant. -/
theorem parts_sumOf (h : ∀ t ∈ ts, t.isSum = false ∧ t.isNum = false) (c : K) :
    (sumOf ts c).symbolicTerms = ts ∧ (sumOf ts c).constantTerm = c := by
  have hsum : ∀ t ∈ ts, t.isSum = false := fun t ht => (h t ht).1
  have hnum : ∀ t ∈ ts, t.isNum = false := fun t ht => (h t ht).2
  unfold sumOf
  split
  · rename_i hc
    rw [List.append_nil]
    obtain ⟨hterms, hconstant⟩ := parts_sumNode hsum
    rw [symbolic_eq_self hnum] at hterms
    rw [numbers_eq_nil hnum] at hconstant
    exact ⟨hterms, hconstant.trans (Scalar.isZero_iff.1 hc).symm⟩
  · have hflat : ∀ t ∈ ts ++ [num c], t.isSum = false :=
      List.forall_mem_append.2 ⟨hsum, List.forall_mem_singleton.2 rfl⟩
    obtain ⟨hterms, hconstant⟩ := parts_sumNode hflat
    rw [symbolic_append, symbolic_eq_self hnum] at hterms
    rw [numbers_append, numbers_eq_nil hnum] at hconstant
    exact ⟨hterms.trans (List.append_nil ts), hconstant.trans List.sum_singleton⟩

theorem parts_add (h : ∀ e ∈ es, e.Canonical) :
    (add es).symbolicTerms = es.flatMap symbolicTerms ∧
      (add es).constantTerm = (es.map constantTerm).sum := by
  rw [add_eq_sumOf]
  refine parts_sumOf (fun t ht => ?_) _
  obtain ⟨e, he, ht⟩ := List.mem_flatMap.1 ht
  exact (h e he).symbolicTerms t ht

/-- A sum of sums is the sum of everything in them. -/
theorem add_map_add (groups : List (List (Expr K))) (h : ∀ es ∈ groups, ∀ e ∈ es, e.Canonical) :
    add (groups.map add) = add groups.flatten := by
  have hterms : (groups.map add).flatMap symbolicTerms = groups.flatten.flatMap symbolicTerms := by
    rw [List.flatMap_map, List.flatten_eq_flatMap, List.flatMap_assoc]
    exact List.flatMap_congr fun es hes => (parts_add (h es hes)).1
  have hconstant : ((groups.map add).map constantTerm).sum =
      (groups.flatten.map constantTerm).sum := by
    rw [List.map_flatten, List.sum_flatten, List.map_map, List.map_map]
    exact congrArg List.sum (List.map_congr_left fun es hes => (parts_add (h es hes)).2)
  rw [add_eq_sumOf, add_eq_sumOf, hterms, hconstant]

/-- A zero in a sum is left out. -/
theorem add_insert_zero (es fs : List (Expr K)) : add (es ++ zero :: fs) = add (es ++ fs) := by
  have hterms : symbolicTerms (zero : Expr K) = [] := rfl
  have hconstant : constantTerm (zero : Expr K) = 0 := List.sum_singleton.trans Scalar.zero_eq
  simp only [add_eq_sumOf, List.flatMap_append, List.flatMap_cons, hterms, List.nil_append,
    List.map_append, List.map_cons, List.sum_append, List.sum_cons, hconstant,
    AddZeroClass.zero_add]

theorem add_zeros (h : ∀ e ∈ es, e = zero) : add es = zero := by
  induction es with
  | nil =>
      rw [add_eq_sumOf, List.flatMap_nil, List.map_nil, List.sum_nil, sumOf,
        if_pos (Scalar.isZero_iff.2 rfl)]
      rfl
  | cons e es ih =>
      obtain ⟨rfl, htail⟩ := List.forall_mem_cons.1 h
      exact (add_insert_zero [] es).trans (ih htail)

theorem add_singleton_of_isSum_eq_false (hsum : e.isSum = false) : add [e] = e := by
  have hparts : add [e] = sumOf (symbolic [e]) (numbers [e]).sum := by
    rw [add_eq_sumOf, List.flatMap_singleton, List.map_singleton, List.sum_singleton,
      Expr.symbolicTerms, constantTerm, Expr.addends_eq hsum]
  rw [hparts]
  cases hnum : e.isNum with
  | true =>
      obtain ⟨a, rfl⟩ := isNum_iff.1 hnum
      change sumNode (if Scalar.isZero [a].sum then [] else [num [a].sum]) = num a
      rw [List.sum_singleton]
      split
      · rename_i ha
        exact congrArg num (Scalar.zero_eq.trans (Scalar.isZero_iff.1 ha).symm)
      · rfl
  | false =>
      have hall : ∀ t ∈ [e], t.isNum = false := List.forall_mem_singleton.2 hnum
      rw [symbolic_eq_self hall, numbers_eq_nil hall, sumOf, List.sum_nil,
        if_pos (Scalar.isZero_iff.2 rfl)]
      rfl

/-- A sum of one canonical tree is the tree. -/
theorem add_singleton (h : e.Canonical) : add [e] = e := by
  cases hsum : e.isSum with
  | true =>
      obtain ⟨terms, rfl⟩ := isSum_iff.1 hsum
      obtain ⟨hform, -⟩ := all_sum.1 h
      have hsame : [sum terms].flatMap addends = terms.flatMap addends :=
        (List.append_nil terms).trans (flatMap_addends hform.flat).symm
      exact (add_congr hsame).trans hform.add
  | false => exact add_singleton_of_isSum_eq_false hsum

end Sums

/-! ### Products -/

section Products

variable {e : Expr K} {es ts : List (Expr K)} {c : K}

/-- The factors that an expression contributes to a product, without its number. -/
def symbolicFactors (e : Expr K) : List (Expr K) := symbolic e.factors

/-- The number that an expression contributes to a product. -/
def coefficient (e : Expr K) : K := (numbers e.factors).prod

/-- The product with a coefficient and some symbolic factors. -/
def prodOf (c : K) (ts : List (Expr K)) : Expr K :=
  if Scalar.isZero c then zero
  else
    match ts with
    | [] => .num c
    | e :: es =>
      if Scalar.eq c Scalar.one then
        match es with
        | [] => e
        | _ => .prod (e :: es)
      else .prod (.num c :: e :: es)

omit [OrderedField K] in
theorem Canonical.isProd_symbolicFactors (h : e.Canonical) :
    ∀ t ∈ e.symbolicFactors, t.isProd = false := fun t ht =>
  (h.factors t (mem_symbolic.1 ht).1).2

omit [OrderedField K] in
theorem mul_congr {fs : List (Expr K)} (h : es.flatMap factors = fs.flatMap factors) :
    mul es = mul fs := by
  unfold Expr.mul
  rw [h]

variable [ExactScalar K]

theorem mul_eq_prodOf (es : List (Expr K)) :
    mul es = prodOf (es.map coefficient).prod (es.flatMap symbolicFactors) := by
  have hcoefficient : (numbers (es.flatMap factors)).foldl Scalar.mul Scalar.one =
      (es.map coefficient).prod := by
    rw [Scalar.foldl_mul, Scalar.one_eq, MulOneClass.one_mul, numbers_flatMap, List.flatMap_def,
      List.prod_flatten, List.map_map]
    rfl
  change prodOf _ (symbolic (es.flatMap factors)) = _
  rw [hcoefficient, symbolic_flatMap]
  rfl

theorem prodOf_zero (ts : List (Expr K)) : prodOf 0 ts = zero := if_pos (Scalar.isZero_iff.2 rfl)

theorem prodOf_nil (c : K) : prodOf c [] = num c := by
  rw [prodOf]
  split
  · rename_i hc
    exact congrArg num (Scalar.zero_eq.trans (Scalar.isZero_iff.1 hc).symm)
  · rfl

/-- A product in normal form shows its coefficient and its factors, unless the coefficient is zero. -/
theorem parts_prodOf (hnum : ∀ t ∈ ts, t.isNum = false)
    (hlone : ∀ t, ts = [t] → t.isProd = false) {c : K} (hc : c ≠ 0) :
    (prodOf c ts).coefficient = c ∧ (prodOf c ts).symbolicFactors = ts := by
  have hzero : Scalar.isZero c = false := Bool.eq_false_iff.2 fun h => hc (Scalar.isZero_iff.1 h)
  unfold prodOf coefficient Expr.symbolicFactors
  rw [hzero, if_neg Bool.false_ne_true]
  match ts with
  | [] => exact ⟨List.prod_singleton, rfl⟩
  | t :: ts =>
    simp only
    split
    · rename_i hone
      obtain rfl : c = 1 := (Scalar.eq_iff.1 hone).trans Scalar.one_eq
      split
      · rw [Expr.factors_eq (hlone t rfl), numbers_eq_nil hnum]
        exact ⟨List.prod_nil, symbolic_eq_self hnum⟩
      · rw [factors, numbers_eq_nil hnum]
        exact ⟨List.prod_nil, symbolic_eq_self hnum⟩
    · change (c :: numbers (t :: ts)).prod = c ∧ symbolic (t :: ts) = t :: ts
      rw [numbers_eq_nil hnum]
      exact ⟨List.prod_singleton, symbolic_eq_self hnum⟩

/-- Only a product itself, as the only symbolic factor, would be opened once more. -/
theorem parts_mul (hlone : ∀ t, es.flatMap symbolicFactors = [t] → t.isProd = false)
    (hc : (es.map coefficient).prod ≠ 0) :
    (mul es).coefficient = (es.map coefficient).prod ∧
      (mul es).symbolicFactors = es.flatMap symbolicFactors := by
  rw [mul_eq_prodOf]
  refine parts_prodOf (fun t ht => ?_) hlone hc
  obtain ⟨e, -, ht⟩ := List.mem_flatMap.1 ht
  exact (mem_symbolic.1 ht).2

/-- A product is a sum only as its only symbolic factor. -/
theorem exists_of_isSum_mul (h : (mul es).isSum = true) :
    ∃ t, es.flatMap symbolicFactors = [t] ∧ t.isSum = true := by
  rw [mul_eq_prodOf] at h
  unfold prodOf at h
  split at h
  · cases h
  · split at h
    · cases h
    · rename_i hfactors
      rw [hfactors]
      split at h
      · split at h
        · exact ⟨_, rfl, h⟩
        · cases h
      · cases h

theorem mul_of_coefficient_eq_zero (hc : (es.map coefficient).prod = 0) : mul es = zero := by
  rw [mul_eq_prodOf, hc, prodOf_zero]

theorem coefficient_mul (h : ∀ e ∈ es, e.Canonical) :
    (mul es).coefficient = (es.map coefficient).prod ∧ ((es.map coefficient).prod ≠ 0 →
      (mul es).symbolicFactors = es.flatMap symbolicFactors) := by
  by_cases hc : (es.map coefficient).prod = 0
  · rw [mul_of_coefficient_eq_zero hc, hc]
    exact ⟨List.prod_singleton.trans Scalar.zero_eq, fun hne => absurd rfl hne⟩
  · have hlone : ∀ t, es.flatMap symbolicFactors = [t] → t.isProd = false := by
      intro t ht
      have hmem : t ∈ es.flatMap symbolicFactors := ht ▸ List.mem_singleton_self t
      obtain ⟨e, he, ht⟩ := List.mem_flatMap.1 hmem
      exact (h e he).isProd_symbolicFactors t ht
    obtain ⟨hcoefficient, hsymbolic⟩ := parts_mul hlone hc
    exact ⟨hcoefficient, fun _ => hsymbolic⟩

/-- A product of products is the product of everything in them. -/
theorem mul_map_mul (groups : List (List (Expr K))) (h : ∀ es ∈ groups, ∀ e ∈ es, e.Canonical) :
    mul (groups.map mul) = mul groups.flatten := by
  have hgroups : (groups.map mul).map coefficient = groups.map fun es => (es.map coefficient).prod := by
    rw [List.map_map]
    exact List.map_congr_left fun es hes => (coefficient_mul (h es hes)).1
  have htotal : (groups.flatten.map coefficient).prod =
      (groups.map fun es => (es.map coefficient).prod).prod := by
    rw [List.map_flatten, List.prod_flatten, List.map_map]
    rfl
  by_cases hzero : (groups.map fun es => (es.map coefficient).prod).prod = 0
  · rw [mul_of_coefficient_eq_zero (hgroups ▸ hzero), mul_of_coefficient_eq_zero (htotal ▸ hzero)]
  · -- No group has the coefficient zero then, so that all of them show their factors.
    have hne : ∀ es ∈ groups, (es.map coefficient).prod ≠ 0 := fun es hes heq =>
      hzero (List.prod_eq_zero (List.mem_map.2 ⟨es, hes, heq⟩))
    have hfactors : (groups.map mul).flatMap symbolicFactors =
        groups.flatten.flatMap symbolicFactors := by
      rw [List.flatMap_map, List.flatten_eq_flatMap, List.flatMap_assoc]
      exact List.flatMap_congr fun es hes => (coefficient_mul (h es hes)).2 (hne es hes)
    rw [mul_eq_prodOf, mul_eq_prodOf, hgroups, htotal, hfactors]

/-- A product of one canonical tree is the tree. -/
theorem mul_singleton (h : e.Canonical) : mul [e] = e := by
  cases hprod : e.isProd with
  | true =>
      obtain ⟨es, rfl⟩ := isProd_iff.1 hprod
      obtain ⟨hform, -⟩ := all_prod.1 h
      have hsame : [prod es].flatMap factors = es.flatMap factors :=
        (List.append_nil es).trans (flatMap_factors hform.flat).symm
      exact (mul_congr hsame).trans hform.mul
  | false =>
      have hparts : mul [e] = prodOf (numbers [e]).prod (symbolic [e]) := by
        rw [mul_eq_prodOf, List.flatMap_singleton, List.map_singleton, List.prod_singleton,
          Expr.symbolicFactors, coefficient, Expr.factors_eq hprod]
      rw [hparts]
      cases hnum : e.isNum with
      | true =>
          obtain ⟨a, rfl⟩ := isNum_iff.1 hnum
          exact (prodOf_nil _).trans (congrArg num List.prod_singleton)
      | false =>
          have hall : ∀ t ∈ [e], t.isNum = false := List.forall_mem_singleton.2 hnum
          have hone : Scalar.isZero (1 : K) = false :=
            Bool.eq_false_iff.2 fun h => one_ne_zero (Scalar.isZero_iff.1 h)
          rw [symbolic_eq_self hall, numbers_eq_nil hall, List.prod_nil, prodOf, hone,
            if_neg Bool.false_ne_true]
          exact if_pos (Scalar.eq_iff.2 Scalar.one_eq.symm)

/-- A one in a product is left out. -/
theorem mul_insert_one (es fs : List (Expr K)) : mul (es ++ one :: fs) = mul (es ++ fs) := by
  have hfactors : symbolicFactors (one : Expr K) = [] := rfl
  have hcoefficient : coefficient (one : Expr K) = 1 := List.prod_singleton.trans Scalar.one_eq
  simp only [mul_eq_prodOf, List.flatMap_append, List.flatMap_cons, hfactors, List.nil_append,
    List.map_append, List.map_cons, List.prod_append, List.prod_cons, hcoefficient,
    MulOneClass.one_mul]

/-- A product with a zero is zero. -/
theorem mul_of_zero_mem (h : zero ∈ es) : mul es = zero := by
  have hzero : coefficient (zero : Expr K) = 0 := List.prod_singleton.trans Scalar.zero_eq
  exact mul_of_coefficient_eq_zero (List.prod_eq_zero (List.mem_map.2 ⟨zero, h, hzero⟩))

theorem zero_mul (e : Expr K) : zero * e = zero := mul_of_zero_mem List.mem_cons_self

theorem mul_zero_eq (e : Expr K) : e * zero = zero :=
  mul_of_zero_mem (List.mem_cons_of_mem e List.mem_cons_self)

theorem num_mul_num (p q : K) : (num p : Expr K) * num q = num (p * q) := by
  have hcoefficient (a : K) : coefficient (num a) = a := List.prod_singleton
  have hproduct : ([num p, num q].map coefficient).prod = p * q := by
    rw [List.map_cons, List.map_singleton, List.prod_pair, hcoefficient, hcoefficient]
  exact (mul_eq_prodOf _).trans (hproduct ▸ prodOf_nil _)

end Products

/-! ### The laws of the operators -/

section Operators

variable [ExactScalar K] {a b c : Expr K}

theorem add_zero_eq (ha : a.Canonical) : a + zero = a :=
  (add_insert_zero [a] []).trans (add_singleton ha)

theorem zero_add_eq (ha : a.Canonical) : zero + a = a :=
  (add_insert_zero [] [a]).trans (add_singleton ha)

theorem mul_one_eq (ha : a.Canonical) : a * one = a :=
  (mul_insert_one [a] []).trans (mul_singleton ha)

theorem one_mul_eq (ha : a.Canonical) : one * a = a :=
  (mul_insert_one [] [a]).trans (mul_singleton ha)

section Associative

variable (ha : a.Canonical) (hb : b.Canonical) (hc : c.Canonical)

include ha hb hc

theorem add_assoc_left : a + b + c = add [a, b, c] := by
  have hgroups := add_map_add [[a, b], [c]] (by simp [ha, hb, hc])
  rwa [List.map_cons, List.map_singleton, add_singleton hc] at hgroups

theorem add_assoc_right : a + (b + c) = add [a, b, c] := by
  have hgroups := add_map_add [[a], [b, c]] (by simp [ha, hb, hc])
  rwa [List.map_cons, List.map_singleton, add_singleton ha] at hgroups

theorem mul_assoc_left : a * b * c = mul [a, b, c] := by
  have hgroups := mul_map_mul [[a, b], [c]] (by simp [ha, hb, hc])
  rwa [List.map_cons, List.map_singleton, mul_singleton hc] at hgroups

theorem mul_assoc_right : a * (b * c) = mul [a, b, c] := by
  have hgroups := mul_map_mul [[a], [b, c]] (by simp [ha, hb, hc])
  rwa [List.map_cons, List.map_singleton, mul_singleton ha] at hgroups

end Associative

theorem neg_zero_eq : -(zero : Expr K) = zero := mul_zero_eq _

/-- The two factors that two negations leave cancel. -/
theorem neg_neg_eq (ha : a.Canonical) : - -a = a := by
  have hnum : (num Scalar.negOne : Expr K).Canonical := canonical_num _
  have hcancel : (num Scalar.negOne : Expr K) * num Scalar.negOne = one := by
    rw [num_mul_num, Scalar.negOne_eq, neg_mul_neg, MulOneClass.mul_one, ← Scalar.one_eq]
    rfl
  calc - -a = num Scalar.negOne * (num Scalar.negOne * a) := rfl
    _ = num Scalar.negOne * num Scalar.negOne * a := by
      rw [mul_assoc_right hnum hnum ha, mul_assoc_left hnum hnum ha]
    _ = a := by rw [hcancel, one_mul_eq ha]

/-- **Sums and products regroup**: with exact coefficients, a sum and a product of three canonical trees
is the same tree however it is grouped, zero and one are units on both sides, a product with zero is
zero and negating twice changes nothing. -/
theorem sums_and_products_regroup (a b c : Expr K) (ha : a.Canonical) (hb : b.Canonical)
    (hc : c.Canonical) :
    (a + b + c = add [a, b, c] ∧ a + (b + c) = add [a, b, c]) ∧
    (a * b * c = mul [a, b, c] ∧ a * (b * c) = mul [a, b, c]) ∧
    (a + zero = a ∧ zero + a = a) ∧ (a * one = a ∧ one * a = a) ∧
    (a * zero = zero ∧ zero * a = zero) ∧ - -a = a :=
  ⟨⟨add_assoc_left ha hb hc, add_assoc_right ha hb hc⟩, ⟨mul_assoc_left ha hb hc, mul_assoc_right ha hb hc⟩,
    ⟨add_zero_eq ha, zero_add_eq ha⟩, ⟨mul_one_eq ha, one_mul_eq ha⟩,
    ⟨mul_zero_eq a, zero_mul a⟩, neg_neg_eq ha⟩

/-- Two factors that cancel leave a sum as the only factor, whichever of them meets it first. -/
theorem sums_and_products_regroup_cancel :
    let s : Expr ℝ := .sum [.access ⟨"c", 0, 0⟩, .access ⟨"d", 0, 0⟩]
    s * num 2 * num (1 / 2) = s * (num 2 * num (1 / 2)) ∧ s * num 2 * num (1 / 2) = s ∧
      - -s = s := by
  intro s
  have hs : s.Canonical := all_sum.2 ⟨⟨le_refl 2, by simp [isSum], by simp [isNum, asNum?],
    by simp [isZero]⟩, by simp [all_access, Settled]⟩
  obtain ⟨-, ⟨hleft, hright⟩, -, ⟨hone, -⟩, -, hneg⟩ :=
    sums_and_products_regroup s (num 2) (num (1 / 2)) hs (canonical_num _) (canonical_num _)
  have hcancel : (num 2 * num (1 / 2) : Expr ℝ) = one := by
    rw [num_mul_num, mul_one_div_cancel two_ne_zero, ← Scalar.one_eq]
    rfl
  refine ⟨hleft.trans hright.symm, ?_, hneg⟩
  rw [hleft, ← hright, hcancel, hone]

end Operators

end Expr

end Electrokinetics
