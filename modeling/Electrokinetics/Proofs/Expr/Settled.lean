/-
**Nodes that building leaves as they are.**

A building function simplifies some nodes and leaves the others: it never flattens a flat sum that has
its constant in place, and never looks for the value of a power that is not decided.  The nodes that
it leaves are described here by their parts, without the function.

Main definitions:

* `Expr.SumForm`, `Expr.ProdForm` — the lists that a sum and a product may hold;
* `Expr.Settled`, `Cond.Settled` — nodes that the building functions leave as they are;
* `Expr.KeepsKind` — maps that the building functions of sums and products do not see.

Main results:

* `Expr.KeepsKind.sumForm`, `Expr.KeepsKind.settled_power`, … — such maps keep settled nodes;
* `Expr.pow_eq_power_iff`, `Expr.piecewise_eq_select_iff`, `Cond.gt_eq_greater_iff`, … — the nodes that
  are left, exactly;
* `Expr.Settled.add`, `Expr.Settled.mul`, `Cond.Settled.and` — lists that are left.
-/

import Electrokinetics.Expr.Build
import Electrokinetics.Proofs.Scalar.Neutral

set_option relaxedAutoImplicit false
set_option autoImplicit false

namespace Electrokinetics

/-! ### Kinds of nodes -/

namespace Expr

section Kinds

variable {K : Type} {es : List (Expr K)}

/-- Whether the expression is a sum. -/
def isSum : Expr K → Bool
  | .sum _ => true
  | _ => false

/-- Whether the expression is a product. -/
def isProd : Expr K → Bool
  | .prod _ => true
  | _ => false

/-- Whether the expression is the number `1`. -/
def isOne [Scalar K] : Expr K → Bool
  | .num value => Scalar.eq value Scalar.one
  | _ => false

theorem isNum_iff {e : Expr K} : e.isNum = true ↔ ∃ a, e = .num a := by
  cases e <;> simp [isNum, asNum?]

theorem isSum_iff {e : Expr K} : e.isSum = true ↔ ∃ terms, e = .sum terms := by
  cases e <;> simp [isSum]

theorem isProd_iff {e : Expr K} : e.isProd = true ↔ ∃ es, e = .prod es := by
  cases e <;> simp [isProd]

theorem isNum_eq_false {e : Expr K} (h : ∀ a, e = .num a → False) : e.isNum = false := by
  cases e with
  | num a => exact (h a rfl).elim
  | _ => rfl

theorem isZero_eq_false [Scalar K] {e : Expr K} (h : e.isNum = false) : e.isZero = false := by
  cases e with
  | num value => cases h
  | _ => rfl

theorem isOne_eq_false [Scalar K] {e : Expr K} (h : e.isNum = false) : e.isOne = false := by
  cases e with
  | num value => cases h
  | _ => rfl

theorem addends_eq {e : Expr K} (h : e.isSum = false) : e.addends = [e] := by
  cases e with
  | sum terms => cases h
  | _ => rfl

theorem factors_eq {e : Expr K} (h : e.isProd = false) : e.factors = [e] := by
  cases e with
  | prod es => cases h
  | _ => rfl

theorem flatMap_addends (h : ∀ e ∈ es, e.isSum = false) : es.flatMap Expr.addends = es := by
  rw [List.flatMap_congr fun e he => addends_eq (h e he), List.flatMap_singleton']

theorem flatMap_factors (h : ∀ e ∈ es, e.isProd = false) : es.flatMap Expr.factors = es := by
  rw [List.flatMap_congr fun e he => factors_eq (h e he), List.flatMap_singleton']

theorem symbolic_eq_self (h : ∀ e ∈ es, e.isNum = false) : Expr.symbolic es = es := by
  rw [symbolic, List.filter_eq_self]
  intro e he
  rw [h e he]
  rfl

theorem numbers_eq_nil (h : ∀ e ∈ es, e.isNum = false) : numbers es = [] := by
  rw [numbers, List.filterMap_eq_nil_iff]
  intro e he
  exact Option.not_isSome_iff_eq_none.1 (Bool.eq_false_iff.1 (h e he))

theorem symbolic_append (fs : List (Expr K)) :
    symbolic (es ++ fs) = symbolic es ++ symbolic fs :=
  List.filter_append ..

theorem numbers_append (fs : List (Expr K)) : numbers (es ++ fs) = numbers es ++ numbers fs :=
  List.filterMap_append ..

theorem mem_symbolic {e : Expr K} :
    e ∈ symbolic es ↔ e ∈ es ∧ e.isNum = false := by
  rw [symbolic, List.mem_filter, Bool.not_eq_true']

end Kinds

end Expr

/-! ### Settled nodes -/

variable {K : Type} [Scalar K]

namespace Expr

/-- The terms of a sum: at least two, no sums, and a number only as the last one and not zero. -/
structure SumForm (terms : List (Expr K)) : Prop where
  two_le : 2 ≤ terms.length
  flat : ∀ e ∈ terms, e.isSum = false
  symbolic : ∀ e ∈ terms.dropLast, e.isNum = false
  constant : ∀ e ∈ terms.getLast?, e.isZero = false

/-- The factors of a product: at least two, no products, and a number only as the first one and
neither zero nor one. -/
structure ProdForm (factors : List (Expr K)) : Prop where
  two_le : 2 ≤ factors.length
  flat : ∀ e ∈ factors, e.isProd = false
  symbolic : ∀ e ∈ factors.tail, e.isNum = false
  coefficient : ∀ e ∈ factors.head?, e.isZero = false ∧ e.isOne = false

end Expr

namespace Cond

/-- Whether a condition is a truth value. -/
def isConst {K : Type} : Cond K → Bool
  | .const _ => true
  | _ => false

theorem isConst_eq_false {K : Type} {c : Cond K} (htrue : c = .const true → False)
    (hfalse : c = .const false → False) : c.isConst = false := by
  cases c with
  | const value =>
      cases value with
      | true => exact (htrue rfl).elim
      | false => exact (hfalse rfl).elim
  | _ => rfl

/-- Whether a condition is a comparison of something other than two numbers. -/
def isOpen {K : Type} : Cond K → Bool
  | .greater lhs rhs => !(lhs.isNum && rhs.isNum)
  | _ => false

/-- A condition that the building functions leave as it is: a truth value, an open comparison, or a
conjunction of at least two of these. -/
def Settled {K : Type} : Cond K → Prop
  | .const _ => True
  | .all conds => 2 ≤ conds.length ∧ ∀ c ∈ conds, c.isOpen = true
  | c => c.isOpen = true

instance {K : Type} : DecidablePred (Settled (K := K))
  | .const _ => .isTrue trivial
  | .all _ => inferInstanceAs (Decidable (_ ∧ _))
  | .greater _ _ => inferInstanceAs (Decidable (_ = true))

end Cond

namespace Expr

/-- A node that the building functions leave as it is. -/
def Settled : Expr K → Prop
  | .sum terms => SumForm terms
  | .prod factors => ProdForm factors
  | .power base exponent =>
    (base.isNum && exponent.isNum) = false ∧ exponent.isOne = false ∧ exponent.isZero = false ∧
      base.isOne = false
  | .call f args => (args.mapM asNum?).bind (foldCall? f) = none
  | .modulo value modulus => (value.isNum && modulus.isNum) = true → modulus.isZero = true
  | .deriv arg _ => (arg.hasAccess || arg.hasCounter) = true
  | .select cond whenTrue whenFalse =>
    cond.isConst = false ∧ cond.Settled ∧ (whenTrue == whenFalse) = false
  | _ => True

instance (terms : List (Expr K)) : Decidable (SumForm terms) :=
  decidable_of_iff (2 ≤ terms.length ∧ (∀ e ∈ terms, e.isSum = false) ∧
      (∀ e ∈ terms.dropLast, e.isNum = false) ∧ ∀ e ∈ terms.getLast?, e.isZero = false)
    ⟨fun ⟨h2, hflat, hsymbolic, hconstant⟩ => ⟨h2, hflat, hsymbolic, hconstant⟩,
      fun ⟨h2, hflat, hsymbolic, hconstant⟩ => ⟨h2, hflat, hsymbolic, hconstant⟩⟩

instance (factors : List (Expr K)) : Decidable (ProdForm factors) :=
  decidable_of_iff (2 ≤ factors.length ∧ (∀ e ∈ factors, e.isProd = false) ∧
      (∀ e ∈ factors.tail, e.isNum = false) ∧
      ∀ e ∈ factors.head?, e.isZero = false ∧ e.isOne = false)
    ⟨fun ⟨h2, hflat, hsymbolic, hcoefficient⟩ => ⟨h2, hflat, hsymbolic, hcoefficient⟩,
      fun ⟨h2, hflat, hsymbolic, hcoefficient⟩ => ⟨h2, hflat, hsymbolic, hcoefficient⟩⟩

instance : DecidablePred (Settled (K := K))
  | .sum terms => inferInstanceAs (Decidable (SumForm terms))
  | .prod factors => inferInstanceAs (Decidable (ProdForm factors))
  | .power _ _ => inferInstanceAs (Decidable (_ ∧ _))
  | .call f args =>
    decidable_of_iff (((args.mapM asNum?).bind (foldCall? f)).isNone = true) Option.isNone_iff_eq_none
  | .modulo _ _ => inferInstanceAs (Decidable (_ → _))
  | .deriv _ _ => inferInstanceAs (Decidable (_ = true))
  | .select _ _ _ => inferInstanceAs (Decidable (_ ∧ _))
  | .num _ => .isTrue trivial
  | .symbol _ => .isTrue trivial
  | .access _ => .isTrue trivial
  | .counter _ => .isTrue trivial
  | .random _ => .isTrue trivial

end Expr

/-! ### Maps that keep the kind of nodes -/

namespace Expr

/-- A map of expressions that leaves numbers as they are and keeps sums and products as such. -/
structure KeepsKind (g : Expr K → Expr K) : Prop where
  asNum? : ∀ e, (g e).asNum? = e.asNum?
  isSum : ∀ e, (g e).isSum = e.isSum
  isProd : ∀ e, (g e).isProd = e.isProd

namespace KeepsKind

variable {g : Expr K → Expr K} (hg : KeepsKind g)

include hg

omit [Scalar K] in
theorem isNum (e : Expr K) : (g e).isNum = e.isNum := congrArg Option.isSome (hg.asNum? e)

theorem isZero (e : Expr K) : (g e).isZero = e.isZero := by
  have heq (e : Expr K) : e.isZero = e.asNum?.any Scalar.isZero := by cases e <;> rfl
  rw [heq, heq, hg.asNum?]

theorem isOne (e : Expr K) : (g e).isOne = e.isOne := by
  have heq (e : Expr K) : e.isOne = e.asNum?.any fun a => Scalar.eq a Scalar.one := by
    cases e <;> rfl
  rw [heq, heq, hg.asNum?]

theorem sumForm {es : List (Expr K)} (h : SumForm es) : SumForm (es.map g) where
  two_le := h.two_le.trans_eq (List.length_map _).symm
  flat := List.forall_mem_map.2 fun e he => (hg.isSum e).trans (h.flat e he)
  symbolic := by
    rw [← List.map_dropLast]
    exact List.forall_mem_map.2 fun e he => (hg.isNum e).trans (h.symbolic e he)
  constant := by
    intro u hu
    rw [List.getLast?_map] at hu
    obtain ⟨e, he, rfl⟩ := Option.map_eq_some_iff.1 hu
    exact (hg.isZero e).trans (h.constant e he)

theorem prodForm {es : List (Expr K)} (h : ProdForm es) : ProdForm (es.map g) where
  two_le := h.two_le.trans_eq (List.length_map _).symm
  flat := List.forall_mem_map.2 fun e he => (hg.isProd e).trans (h.flat e he)
  symbolic := by
    rw [← List.map_tail]
    exact List.forall_mem_map.2 fun e he => (hg.isNum e).trans (h.symbolic e he)
  coefficient := by
    intro u hu
    rw [List.head?_map] at hu
    obtain ⟨e, he, rfl⟩ := Option.map_eq_some_iff.1 hu
    obtain ⟨hzero, hone⟩ := h.coefficient e he
    exact ⟨(hg.isZero e).trans hzero, (hg.isOne e).trans hone⟩

theorem settled_power {b e : Expr K} (h : (power b e).Settled) : (power (g b) (g e)).Settled := by
  obtain ⟨hnum, hone, hzero, hbase⟩ := h
  exact ⟨by rw [hg.isNum, hg.isNum, hnum], (hg.isOne _).trans hone, (hg.isZero _).trans hzero,
    (hg.isOne _).trans hbase⟩

theorem settled_call {f : Func} {es : List (Expr K)} (h : (call f es).Settled) :
    (call f (es.map g)).Settled := by
  have hargs : (es.map g).mapM Expr.asNum? = es.mapM Expr.asNum? := by
    rw [List.mapM_map]
    congr 1
    funext e
    exact hg.asNum? e
  change ((es.map g).mapM Expr.asNum?).bind (foldCall? f) = none
  rw [hargs]
  exact h

theorem settled_modulo {a m : Expr K} (h : (modulo a m).Settled) :
    (modulo (g a) (g m)).Settled := by
  intro hnum
  rw [hg.isNum, hg.isNum] at hnum
  exact (hg.isZero _).trans (h hnum)

omit [Scalar K] in
theorem isOpen_greater (e f : Expr K) :
    (Cond.greater (g e) (g f)).isOpen = (Cond.greater e f).isOpen := by
  simp only [Cond.isOpen, hg.isNum]

end KeepsKind

end Expr

omit [Scalar K] in
/-- A map of conditions that keeps open comparisons keeps conjunctions of them. -/
theorem Cond.Settled.map {gc : Cond K → Cond K} {cs : List (Cond K)} (h : (Cond.all cs).Settled)
    (hopen : ∀ c, (gc c).isOpen = c.isOpen) : (Cond.all (cs.map gc)).Settled :=
  ⟨h.1.trans_eq (List.length_map _).symm,
    List.forall_mem_map.2 fun c hc => (hopen c).trans (h.2 c hc)⟩

/-! ### Building functions that leave a node as it is -/

namespace Expr

variable {e f : Expr K} {es : List (Expr K)} {c : Cond K}

theorem pow_cases (e f : Expr K) :
    pow e f = e ∨ (∃ a, pow e f = num a) ∨ pow e f = power e f := by
  unfold Expr.pow
  split
  · split
    · exact .inl rfl
    · split <;> exact .inr (.inl ⟨_, rfl⟩)
  · split
    · exact .inl rfl
    · split
      · exact .inr (.inl ⟨_, rfl⟩)
      · exact .inr (.inr rfl)
  · split
    · exact .inr (.inl ⟨_, rfl⟩)
    · exact .inr (.inr rfl)
  · exact .inr (.inr rfl)

theorem pow_eq_power_iff : pow e f = power e f ↔ (power e f).Settled := by
  have hbase : e ≠ power e f := by
    intro h
    have hsize := congrArg sizeOf h
    simp only [power.sizeOf_spec] at hsize
    omega
  constructor
  · intro h
    unfold Expr.pow at h
    split at h
    · split at h
      · cases h
      · split at h <;> cases h
    · rename_i hnum
      have hnumber := isNum_eq_false hnum
      split at h
      · exact absurd h hbase
      · rename_i hone
        split at h
        · cases h
        · rename_i hzero
          exact ⟨by rw [hnumber, Bool.false_and], Bool.eq_false_iff.2 hone,
            Bool.eq_false_iff.2 hzero, isOne_eq_false hnumber⟩
    · rename_i hnum
      have hnumber := isNum_eq_false hnum
      split at h
      · cases h
      · rename_i hone
        exact ⟨by rw [hnumber, Bool.and_false], isOne_eq_false hnumber, isZero_eq_false hnumber,
          Bool.eq_false_iff.2 hone⟩
    · rename_i hnum hnum' _
      have hnumber := isNum_eq_false hnum'
      exact ⟨by rw [hnumber, Bool.and_false], isOne_eq_false hnumber, isZero_eq_false hnumber,
        isOne_eq_false (isNum_eq_false hnum)⟩
  · rintro ⟨hnumbers, hone, hzero, hbase⟩
    cases e <;> cases f <;> simp_all [Expr.pow, isNum, asNum?, isOne, isZero]

theorem apply_eq_call_iff {g : Func} : apply g es = call g es ↔ (call g es).Settled := by
  change _ ↔ (es.mapM asNum?).bind (foldCall? g) = none
  unfold Expr.apply
  split <;> simp_all

theorem mod_eq_modulo_iff : e.mod f = modulo e f ↔ (modulo e f).Settled := by
  change _ ↔ ((e.isNum && f.isNum) = true → f.isZero = true)
  unfold Expr.mod
  split
  · rename_i a m
    change _ ↔ (true = true → Scalar.isZero m = true)
    split <;> simp_all
  · rename_i hnumbers
    refine iff_of_true rfl fun hnum => ?_
    obtain ⟨a, rfl⟩ := isNum_iff.1 (Bool.and_eq_true_iff.1 hnum).1
    obtain ⟨m, rfl⟩ := isNum_iff.1 (Bool.and_eq_true_iff.1 hnum).2
    exact (hnumbers a m rfl rfl).elim

theorem diff_eq_deriv_iff {axis : Axis} : e.diff axis = deriv e axis ↔ (deriv e axis).Settled := by
  change _ ↔ (e.hasAccess || e.hasCounter) = true
  unfold Expr.diff
  split <;> simp_all [zero]

theorem piecewise_cases (c : Cond K) (e f : Expr K) :
    piecewise c e f = e ∨ piecewise c e f = f ∨ piecewise c e f = select c e f := by
  unfold Expr.piecewise
  split
  · exact .inl rfl
  · exact .inr (.inl rfl)
  · split
    · exact .inl rfl
    · exact .inr (.inr rfl)

theorem piecewise_eq_select_iff :
    piecewise c e f = select c e f ↔ c.isConst = false ∧ (e == f) = false := by
  have htrue : e ≠ select c e f := by
    intro h
    have hsize := congrArg sizeOf h
    simp only [select.sizeOf_spec] at hsize
    omega
  have hfalse : f ≠ select c e f := by
    intro h
    have hsize := congrArg sizeOf h
    simp only [select.sizeOf_spec] at hsize
    omega
  unfold Expr.piecewise
  split
  · exact iff_of_false htrue fun h => by cases h.1
  · exact iff_of_false hfalse fun h => by cases h.1
  · rename_i hnottrue hnotfalse
    rw [and_iff_right (Cond.isConst_eq_false hnottrue hnotfalse)]
    split
    · rename_i hsame
      exact iff_of_false htrue fun h => by rw [h] at hsame; cases hsame
    · rename_i hdiffer
      exact iff_of_true rfl (Bool.eq_false_iff.2 hdiffer)

end Expr

namespace Cond

variable {e f : Expr K}

theorem gt_cases (e f : Expr K) : (∃ value, gt e f = const value) ∨ gt e f = greater e f := by
  unfold Cond.gt
  split
  · exact .inl ⟨_, rfl⟩
  · exact .inr rfl

theorem gt_eq_greater_iff : gt e f = greater e f ↔ (greater e f).Settled := by
  change _ ↔ (!(e.isNum && f.isNum)) = true
  unfold Cond.gt
  split
  · exact iff_of_false (fun h => by cases h) fun h => by cases h
  · rename_i hnumbers
    refine iff_of_true rfl ?_
    cases e <;> cases f <;> first | rfl | exact (hnumbers _ _ rfl rfl).elim

end Cond

/-! ### Sums, products and conjunctions -/

namespace Expr

variable {es : List (Expr K)}

variable [NeutralScalar K] in
theorem Settled.add (h : (sum es).Settled) : add es = sum es := by
  obtain ⟨h2, hflat, hsymbolic, hconstant⟩ := h
  obtain ⟨init, last, rfl⟩ : ∃ init last, es = init ++ [last] :=
    ⟨_, _, (List.dropLast_append_getLast (List.ne_nil_of_length_pos (by omega))).symm⟩
  rw [List.dropLast_concat] at hsymbolic
  rw [List.getLast?_concat] at hconstant
  -- The numbers are the constant, if there is one, and the sum of one number is that number.
  have hterms : Expr.symbolic (init ++ [last]) ++
      (if Scalar.isZero ((numbers (init ++ [last])).foldl Scalar.add Scalar.zero) then []
        else [num ((numbers (init ++ [last])).foldl Scalar.add Scalar.zero)]) = init ++ [last] := by
    rw [symbolic_append, numbers_append, symbolic_eq_self hsymbolic, numbers_eq_nil hsymbolic,
      List.nil_append, List.append_assoc]
    congr 1
    cases hnum : last.isNum with
    | true =>
        obtain ⟨c, rfl⟩ := isNum_iff.1 hnum
        have hc : Scalar.isZero c = false := hconstant _ rfl
        change (if Scalar.isZero (Scalar.add Scalar.zero c) then [] else _) = _
        rw [NeutralScalar.zero_add hc, hc]
        exact congrArg (fun a => [num a]) (NeutralScalar.zero_add hc)
    | false =>
        have hlast : ∀ e ∈ [last], e.isNum = false := by simpa using hnum
        rw [symbolic_eq_self hlast, numbers_eq_nil hlast, List.foldl_nil,
          NeutralScalar.isZero_zero, if_pos rfl, List.append_nil]
  unfold Expr.add
  simp only
  rw [flatMap_addends hflat, hterms]
  split
  · rename_i hnil
    simp [hnil] at h2
  · rename_i hone
    simp [hone] at h2
  · rfl

variable [NeutralScalar K] in
theorem Settled.mul (h : (prod es).Settled) : mul es = prod es := by
  obtain ⟨h2, hflat, hsymbolic, hcoefficient⟩ := h
  match es, h2 with
  | e :: f :: es, _ =>
    obtain ⟨hzero, hone⟩ := hcoefficient e rfl
    have hrest : ∀ t ∈ f :: es, t.isNum = false := hsymbolic
    unfold Expr.mul
    simp only
    rw [flatMap_factors hflat]
    cases hnum : e.isNum with
    | true =>
        obtain ⟨c, rfl⟩ := isNum_iff.1 hnum
        have hnumbers : (numbers (num c :: f :: es)).foldl Scalar.mul Scalar.one = c := by
          change (numbers (f :: es)).foldl Scalar.mul (Scalar.mul Scalar.one c) = c
          rw [numbers_eq_nil hrest, List.foldl_nil, NeutralScalar.one_mul]
        have hterms : Expr.symbolic (num c :: f :: es) = f :: es := symbolic_eq_self hrest
        have hc0 : Scalar.isZero c = false := hzero
        have hc1 : Scalar.eq c Scalar.one = false := hone
        rw [hnumbers, hterms, hc0, hc1]
        rfl
    | false =>
        have hall : ∀ t ∈ e :: f :: es, t.isNum = false := List.forall_mem_cons.2 ⟨hnum, hrest⟩
        rw [numbers_eq_nil hall, symbolic_eq_self hall, List.foldl_nil, NeutralScalar.isZero_one,
          NeutralScalar.eq_one_one]
        rfl

end Expr

namespace Cond

omit [Scalar K] in
theorem settled_of_isOpen {c : Cond K} (h : c.isOpen = true) : c.Settled := by
  cases c with
  | greater lhs rhs => exact h
  | _ => cases h

omit [Scalar K] in
theorem conjuncts_of_isOpen {d : Cond K} (h : d.isOpen = true) : d.conjuncts = [d] := by
  cases d with
  | greater lhs rhs => rfl
  | _ => cases h

omit [Scalar K] in
theorem isFalse_of_isOpen {d : Cond K} (h : d.isOpen = true) : d.isFalse = false := by
  cases d with
  | greater lhs rhs => rfl
  | _ => cases h

omit [Scalar K] in
theorem Settled.and {cs : List (Cond K)} (h : (all cs).Settled) : and cs = all cs := by
  obtain ⟨h2, hopen⟩ := h
  have hfalse : cs.any isFalse = false :=
    List.any_eq_false.2 fun d hd => Bool.eq_false_iff.1 (isFalse_of_isOpen (hopen d hd))
  have hconjuncts : cs.flatMap Cond.conjuncts = cs := by
    rw [List.flatMap_congr fun d hd => conjuncts_of_isOpen (hopen d hd), List.flatMap_singleton']
  unfold Cond.and
  rw [hfalse, hconjuncts]
  match cs, h2 with
  | c :: d :: cs, _ => rfl

end Cond

end Electrokinetics
