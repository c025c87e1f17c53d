/-
**Structural equality.**

Structural equality compares numbers by value.  Exact scalars of one value are equal, so exact
expressions that compare equal are the same tree.

Main results:

* `Expr.eq_of_same` — what compares equal is equal.
-/

import Electrokinetics.Expr.Build
import Electrokinetics.Proofs.Scalar.Exact

set_option relaxedAutoImplicit false
set_option autoImplicit false

namespace Electrokinetics

variable {K : Type} [Scalar K]

theorem Expr.eq_of_sameList {es fs : List (Expr K)}
    (ih : ∀ e ∈ es, ∀ f, e.same f = true → e = f) (h : Expr.sameList es fs = true) : es = fs := by
  induction es generalizing fs with
  | nil =>
      cases fs with
      | nil => rfl
      | cons f fs => simp [Expr.sameList] at h
  | cons e es hes =>
      cases fs with
      | nil => simp [Expr.sameList] at h
      | cons f fs =>
          rw [Expr.sameList, Bool.and_eq_true_iff] at h
          obtain ⟨hhead, htail⟩ := h
          rw [ih e List.mem_cons_self f hhead,
            hes (fun e he => ih e (List.mem_cons_of_mem _ he)) htail]

theorem Cond.eq_of_sameList {cs ds : List (Cond K)}
    (ih : ∀ c ∈ cs, ∀ d, c.same d = true → c = d) (h : Cond.sameList cs ds = true) : cs = ds := by
  induction cs generalizing ds with
  | nil =>
      cases ds with
      | nil => rfl
      | cons d ds => simp [Cond.sameList] at h
  | cons c cs hcs =>
      cases ds with
      | nil => simp [Cond.sameList] at h
      | cons d ds =>
          rw [Cond.sameList, Bool.and_eq_true_iff] at h
          obtain ⟨hhead, htail⟩ := h
          rw [ih c List.mem_cons_self d hhead,
            hcs (fun c hc => ih c (List.mem_cons_of_mem _ hc)) htail]

variable [OrderedField K] [ExactScalar K]

theorem sameSteps : Expr.InductionSteps (K := K) (fun e => ∀ f, e.same f = true → e = f)
    (fun c => ∀ d, c.same d = true → c = d) where
  num value f h := by
    cases f <;> simp only [Expr.same, Bool.false_eq_true] at h
    rw [Scalar.eq_iff.1 h]
  symbol s f h := by
    cases f <;> simp only [Expr.same, Bool.false_eq_true] at h
    rw [eq_of_beq h]
  access a f h := by
    cases f <;> simp only [Expr.same, Bool.false_eq_true] at h
    rw [eq_of_beq h]
  counter axis f h := by
    cases f <;> simp only [Expr.same, Bool.false_eq_true] at h
    rw [eq_of_beq h]
  sum terms ih f h := by
    cases f <;> simp only [Expr.same, Bool.false_eq_true] at h
    rw [Expr.eq_of_sameList ih h]
  prod factors ih f h := by
    cases f <;> simp only [Expr.same, Bool.false_eq_true] at h
    rw [Expr.eq_of_sameList ih h]
  power base exponent ih₁ ih₂ f h := by
    cases f <;> simp only [Expr.same, Bool.false_eq_true, Bool.and_eq_true] at h
    rw [ih₁ _ h.1, ih₂ _ h.2]
  call g args ih f h := by
    cases f <;> simp only [Expr.same, Bool.false_eq_true, Bool.and_eq_true] at h
    rw [eq_of_beq h.1, Expr.eq_of_sameList ih h.2]
  modulo value modulus ih₁ ih₂ f h := by
    cases f <;> simp only [Expr.same, Bool.false_eq_true, Bool.and_eq_true] at h
    rw [ih₁ _ h.1, ih₂ _ h.2]
  deriv arg axis ih f h := by
    cases f <;> simp only [Expr.same, Bool.false_eq_true, Bool.and_eq_true] at h
    rw [ih _ h.1, eq_of_beq h.2]
  select cond whenTrue whenFalse ihc ih₁ ih₂ f h := by
    cases f <;> simp only [Expr.same, Bool.false_eq_true, Bool.and_eq_true] at h
    rw [ihc _ h.1.1, ih₁ _ h.1.2, ih₂ _ h.2]
  random key ihc iht ihs f h := by
    obtain ⟨⟨x, y, z⟩, channel, t, s⟩ := key
    cases f with
    | random key' =>
        obtain ⟨⟨x', y', z'⟩, channel', t', s'⟩ := key'
        simp only [Expr.same, Bool.and_eq_true] at h
        obtain ⟨⟨⟨⟨⟨hx, hy⟩, hz⟩, hchannel⟩, ht⟩, hs⟩ := h
        obtain rfl : x = x' := ihc .x _ hx
        obtain rfl : y = y' := ihc .y _ hy
        obtain rfl : z = z' := ihc .z _ hz
        obtain rfl : t = t' := iht _ ht
        obtain rfl : s = s' := ihs _ hs
        rw [eq_of_beq hchannel]
    | _ => simp only [Expr.same, Bool.false_eq_true] at h
  const value d h := by
    cases d <;> simp only [Cond.same, Bool.false_eq_true] at h
    rw [eq_of_beq h]
  greater lhs rhs ih₁ ih₂ d h := by
    cases d <;> simp only [Cond.same, Bool.false_eq_true, Bool.and_eq_true] at h
    rw [ih₁ _ h.1, ih₂ _ h.2]
  all conds ih d h := by
    cases d <;> simp only [Cond.same, Bool.false_eq_true] at h
    rw [Cond.eq_of_sameList ih h]

/-- Expressions that compare equal are equal. -/
theorem Expr.eq_of_same {e f : Expr K} (h : e.same f = true) : e = f :=
  Expr.induct sameSteps e f h

end Electrokinetics
