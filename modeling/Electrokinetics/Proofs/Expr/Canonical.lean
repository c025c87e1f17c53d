/-
**Canonical trees.**

A tree is canonical if none of its nodes is one that the building functions would have simplified:
its sums and products are flat and hold at most one number, in its place, and no power, application,
remainder, derivative, condition or case distinction in it is decided.  Building functions make
canonical trees of canonical parts, so every transformation whose replacements are canonical gives a
canonical tree, whatever it is applied to; and on a canonical tree there is nothing left to simplify.

Main definitions:

* `Expr.Canonical`, `Cond.Canonical` — trees of settled nodes.

Main results:

* `Expr.canonical_add`, `Expr.canonical_pow`, `Cond.canonical_and`, … — one for each building function;
* `Expr.canonical_transform` — transformations;
* `Expr.rebuild_eq` — nothing is left to simplify;
* `Expr.canonical_form_kept` — all of these together.
-/

import Electrokinetics.Proofs.Expr.Nodes
import Electrokinetics.Proofs.Expr.Settled

set_option relaxedAutoImplicit false
set_option autoImplicit false

namespace Electrokinetics

variable {K : Type} [Scalar K]

namespace Expr

/-- A tree of settled nodes. -/
def Canonical (e : Expr K) : Prop := e.All Settled

end Expr

/-- A settled condition on trees of settled nodes. -/
def Cond.Canonical (c : Cond K) : Prop := c.Settled ∧ c.All Expr.Settled

instance : DecidablePred (Expr.Canonical (K := K)) := fun e =>
  inferInstanceAs (Decidable (∀ t ∈ e.subterms, t.Settled))

/-! ### Sums and products -/

theorem two_le_length {α : Type} {l : List α} (h0 : l ≠ []) (h1 : ∀ a, l ≠ [a]) :
    2 ≤ l.length := by
  match l with
  | [] => exact absurd rfl h0
  | [a] => exact absurd rfl (h1 a)
  | a :: b :: l => simp

namespace Expr

variable {e f : Expr K} {es : List (Expr K)}

theorem canonical_num (value : K) : (num value).Canonical := all_num.2 trivial

theorem Canonical.addends (h : e.Canonical) :
    ∀ t ∈ e.addends, t.Canonical ∧ t.isSum = false := by
  cases e with
  | sum terms =>
      obtain ⟨hform, hterms⟩ := all_sum.1 h
      exact fun t ht => ⟨hterms t ht, hform.flat t ht⟩
  | _ =>
      intro t ht
      rw [List.mem_singleton.1 ht]
      exact ⟨h, rfl⟩

theorem Canonical.factors (h : e.Canonical) :
    ∀ t ∈ e.factors, t.Canonical ∧ t.isProd = false := by
  cases e with
  | prod es =>
      obtain ⟨hform, hes⟩ := all_prod.1 h
      exact fun t ht => ⟨hes t ht, hform.flat t ht⟩
  | _ =>
      intro t ht
      rw [List.mem_singleton.1 ht]
      exact ⟨h, rfl⟩

/-- Terms that are no numbers, with a constant that is not zero behind them or none. -/
theorem SumForm.of_symbolic (h2 : 2 ≤ es.length) (hflat : ∀ e ∈ es, e.isSum = false)
    (hsymbolic : ∀ e ∈ es, e.isNum = false) : SumForm es where
  two_le := h2
  flat := hflat
  symbolic e he := hsymbolic e (List.mem_of_mem_dropLast he)
  constant e he := isZero_eq_false (hsymbolic e (List.mem_of_getLast? he))

theorem SumForm.concat {c : K} (h2 : 2 ≤ (es ++ [num c]).length)
    (hflat : ∀ e ∈ es, e.isSum = false) (hsymbolic : ∀ e ∈ es, e.isNum = false)
    (hc : Scalar.isZero c = false) : SumForm (es ++ [num c]) where
  two_le := h2
  flat e he := by
    rcases List.mem_append.1 he with he | he
    · exact hflat e he
    · rw [List.mem_singleton.1 he]
      rfl
  symbolic e he := by
    rw [List.dropLast_concat] at he
    exact hsymbolic e he
  constant e he := by
    rw [List.getLast?_concat, Option.mem_some_iff] at he
    rw [← he]
    exact hc

theorem canonical_add (h : ∀ e ∈ es, e.Canonical) : (add es).Canonical := by
  have hterms : ∀ t ∈ Expr.symbolic (es.flatMap Expr.addends),
      t.Canonical ∧ t.isSum = false ∧ t.isNum = false := by
    intro t ht
    obtain ⟨ht, hnum⟩ := mem_symbolic.1 ht
    obtain ⟨e, he, ht⟩ := List.mem_flatMap.1 ht
    obtain ⟨hcanonical, hsum⟩ := (h e he).addends t ht
    exact ⟨hcanonical, hsum, hnum⟩
  unfold Expr.add
  simp only
  generalize Expr.symbolic (es.flatMap Expr.addends) = ts at hterms ⊢
  generalize (Expr.numbers (es.flatMap Expr.addends)).foldl Scalar.add Scalar.zero = c
  have hall : ∀ t ∈ ts ++ (if Scalar.isZero c then [] else [num c]), t.Canonical := by
    intro t ht
    rcases List.mem_append.1 ht with ht | ht
    · exact (hterms t ht).1
    · split at ht
      · cases ht
      · rw [List.mem_singleton.1 ht]
        exact canonical_num c
  -- Whether there is a constant or not, the list is in form as soon as it has two terms.
  have hform (h2 : 2 ≤ (ts ++ (if Scalar.isZero c then [] else [num c])).length) :
      SumForm (ts ++ (if Scalar.isZero c then [] else [num c])) := by
    cases hc : Scalar.isZero c with
    | true =>
        simp only [hc, if_true, List.append_nil] at h2 ⊢
        exact .of_symbolic h2 (fun t ht => (hterms t ht).2.1) fun t ht => (hterms t ht).2.2
    | false =>
        simp only [hc, Bool.false_eq_true, if_false] at h2 ⊢
        exact .concat h2 (fun t ht => (hterms t ht).2.1) (fun t ht => (hterms t ht).2.2) hc
  split
  · exact canonical_num _
  · rename_i heq
    rw [heq] at hall
    exact hall _ List.mem_cons_self
  · rename_i hnil hone
    exact all_sum.2 ⟨hform (two_le_length hnil hone), hall⟩

theorem canonical_mul (h : ∀ e ∈ es, e.Canonical) : (mul es).Canonical := by
  have hfactors : ∀ t ∈ Expr.symbolic (es.flatMap Expr.factors),
      t.Canonical ∧ t.isProd = false ∧ t.isNum = false := by
    intro t ht
    obtain ⟨ht, hnum⟩ := mem_symbolic.1 ht
    obtain ⟨e, he, ht⟩ := List.mem_flatMap.1 ht
    obtain ⟨hcanonical, hprod⟩ := (h e he).factors t ht
    exact ⟨hcanonical, hprod, hnum⟩
  unfold Expr.mul
  simp only
  generalize (Expr.numbers (es.flatMap Expr.factors)).foldl Scalar.mul Scalar.one = c
  split
  · exact canonical_num _
  · rename_i hzero
    split
    · exact canonical_num _
    · rename_i heq
      rw [heq] at hfactors
      have hhead := hfactors _ List.mem_cons_self
      split
      · split
        · exact hhead.1
        · rename_i hmore
          refine all_prod.2 ⟨⟨two_le_length (List.cons_ne_nil _ _) ?_,
            fun t ht => (hfactors t ht).2.1,
            fun t ht => (hfactors t (List.mem_cons_of_mem _ ht)).2.2, ?_⟩,
            fun t ht => (hfactors t ht).1⟩
          · exact fun t ht => hmore (List.cons.inj ht).2
          · intro t ht
            obtain rfl := Option.some.inj ht
            exact ⟨isZero_eq_false hhead.2.2, isOne_eq_false hhead.2.2⟩
      · rename_i hone
        refine all_prod.2 ⟨⟨by simp, ?_, fun t ht => (hfactors t ht).2.2, ?_⟩, ?_⟩
        · exact List.forall_mem_cons.2 ⟨rfl, fun t ht => (hfactors t ht).2.1⟩
        · intro t ht
          obtain rfl := Option.some.inj ht
          exact ⟨Bool.eq_false_iff.2 hzero, Bool.eq_false_iff.2 hone⟩
        · exact List.forall_mem_cons.2 ⟨canonical_num c, fun t ht => (hfactors t ht).1⟩

/-! ### Powers and functions -/

theorem canonical_pow (he : e.Canonical) (hf : f.Canonical) : (pow e f).Canonical := by
  rcases pow_cases e f with h | ⟨a, h⟩ | h
  · rw [h]
    exact he
  · rw [h]
    exact canonical_num a
  · rw [h]
    exact all_power.2 ⟨pow_eq_power_iff.1 h, he, hf⟩

theorem canonical_apply (g : Func) (h : ∀ e ∈ es, e.Canonical) : (apply g es).Canonical := by
  unfold Expr.apply
  split
  · exact canonical_num _
  · rename_i hnone
    exact all_call.2 ⟨hnone, h⟩

theorem canonical_mod (he : e.Canonical) (hf : f.Canonical) : (e.mod f).Canonical := by
  unfold Expr.mod
  split
  · split
    · rename_i hzero
      exact all_modulo.2 ⟨fun _ => hzero, he, hf⟩
    · exact canonical_num _
  · rename_i hnumbers
    refine all_modulo.2 ⟨fun hnum => ?_, he, hf⟩
    cases e <;> cases f <;> first | exact (hnumbers _ _ rfl rfl).elim | cases hnum

theorem canonical_diff (axis : Axis) (he : e.Canonical) : (e.diff axis).Canonical := by
  unfold Expr.diff
  split
  · rename_i hdepends
    exact all_deriv.2 ⟨hdepends, he⟩
  · exact canonical_num _

theorem canonical_random {key : RandomKey (Expr K)}
    (hcounters : ∀ axis, (key.counters.get axis).Canonical) (htime : key.timeStep.Canonical)
    (hseed : key.seed.Canonical) : (random key).Canonical :=
  all_random.2 ⟨trivial, hcounters, htime, hseed⟩

end Expr

/-! ### Conditions and case distinctions -/

namespace Cond

theorem canonical_const (value : Bool) : (const value : Cond K).Canonical :=
  ⟨trivial, all_const value⟩

theorem canonical_gt {e f : Expr K} (he : e.Canonical) (hf : f.Canonical) :
    (gt e f).Canonical := by
  rcases gt_cases e f with ⟨value, h⟩ | h
  · rw [h]
    exact canonical_const value
  · rw [h]
    exact ⟨gt_eq_greater_iff.1 h, all_greater.2 ⟨he, hf⟩⟩

/-- What a settled condition that is not false contributes to a conjunction are open comparisons. -/
theorem Canonical.conjuncts {c : Cond K} (h : c.Canonical) (hfalse : c.isFalse = false) :
    ∀ d ∈ c.conjuncts, d.isOpen = true ∧ d.All Expr.Settled := by
  obtain ⟨hsettled, hall⟩ := h
  cases c with
  | const value =>
      cases value with
      | true => exact fun d hd => by cases hd
      | false => cases hfalse
  | greater lhs rhs =>
      intro d hd
      rw [List.mem_singleton.1 hd]
      exact ⟨hsettled, hall⟩
  | all conds => exact fun d hd => ⟨hsettled.2 d hd, all_all.1 hall d hd⟩

theorem canonical_and {cs : List (Cond K)} (h : ∀ c ∈ cs, c.Canonical) : (and cs).Canonical := by
  unfold Cond.and
  split
  · exact canonical_const _
  · rename_i hfalse
    rw [Bool.not_eq_true, List.any_eq_false] at hfalse
    have hopen : ∀ d ∈ cs.flatMap Cond.conjuncts, d.isOpen = true ∧ d.All Expr.Settled := by
      intro d hd
      obtain ⟨c, hc, hd⟩ := List.mem_flatMap.1 hd
      exact (h c hc).conjuncts (Bool.eq_false_iff.2 (hfalse c hc)) d hd
    split
    · exact canonical_const _
    · rename_i heq
      rw [heq] at hopen
      obtain ⟨hcomparison, hall⟩ := hopen _ List.mem_cons_self
      exact ⟨settled_of_isOpen hcomparison, hall⟩
    · rename_i hnil hone
      exact ⟨⟨two_le_length hnil hone, fun d hd => (hopen d hd).1⟩,
        all_all.2 fun d hd => (hopen d hd).2⟩

end Cond

namespace Expr

variable {e f : Expr K} {c : Cond K}

theorem canonical_piecewise (hc : c.Canonical) (he : e.Canonical) (hf : f.Canonical) :
    (piecewise c e f).Canonical := by
  rcases piecewise_cases c e f with h | h | h
  · rw [h]
    exact he
  · rw [h]
    exact hf
  · obtain ⟨hconst, hdiffer⟩ := piecewise_eq_select_iff.1 h
    rw [h]
    exact all_select.2 ⟨⟨hconst, hc.1, hdiffer⟩, hc.2, he, hf⟩

/-! ### Operators -/

theorem canonical_add_pair (he : e.Canonical) (hf : f.Canonical) : (e + f).Canonical :=
  canonical_add (by simpa using ⟨he, hf⟩)

theorem canonical_mul_pair (he : e.Canonical) (hf : f.Canonical) : (e * f).Canonical :=
  canonical_mul (by simpa using ⟨he, hf⟩)

theorem canonical_neg (he : e.Canonical) : (-e).Canonical :=
  canonical_mul_pair (canonical_num _) he

theorem canonical_sub (he : e.Canonical) (hf : f.Canonical) : (e - f).Canonical :=
  canonical_add_pair he (canonical_neg hf)

theorem canonical_div (he : e.Canonical) (hf : f.Canonical) : (e / f).Canonical :=
  canonical_mul_pair he (canonical_pow hf (canonical_num _))

theorem canonical_div_scalar (he : e.Canonical) (a : K) : (e / a).Canonical :=
  canonical_mul_pair he (canonical_num _)

/-! ### Transformations -/

variable {t : Expr K → Option (Expr K)}

theorem canonical_getD {r : Expr K} (ht : ∀ e u, t e = some u → u.Canonical) (hr : r.Canonical) :
    ((t e).getD r).Canonical := by
  cases h : t e with
  | some u => exact ht e u h
  | none => exact hr

/-- The induction behind `Expr.canonical_transform`. -/
theorem canonicalSteps (ht : ∀ e u, t e = some u → u.Canonical) : Expr.InductionSteps (K := K)
    (fun e => (e.transform t).Canonical) (fun c => (c.transform t).Canonical) where
  num value := canonical_getD ht (canonical_num value)
  symbol s := canonical_getD ht (all_symbol.2 trivial)
  access a := canonical_getD ht (all_access.2 trivial)
  counter axis := canonical_getD ht (all_counter.2 trivial)
  sum terms ih := by
    rw [transform, transformList_eq]
    exact canonical_getD ht (canonical_add (List.forall_mem_map.2 ih))
  prod factors ih := by
    rw [transform, transformList_eq]
    exact canonical_getD ht (canonical_mul (List.forall_mem_map.2 ih))
  power base exponent ih₁ ih₂ := canonical_getD ht (canonical_pow ih₁ ih₂)
  call g args ih := by
    rw [transform, transformList_eq]
    exact canonical_getD ht (canonical_apply g (List.forall_mem_map.2 ih))
  modulo value modulus ih₁ ih₂ := canonical_getD ht (canonical_mod ih₁ ih₂)
  deriv arg axis ih := canonical_getD ht (canonical_diff axis ih)
  select cond whenTrue whenFalse ihc ih₁ ih₂ :=
    canonical_getD ht (canonical_piecewise ihc ih₁ ih₂)
  random key ihcounters iht ihs := by
    obtain ⟨⟨x, y, z⟩, channel, timeStep, seed⟩ := key
    refine canonical_getD ht (canonical_random (fun axis => ?_) iht ihs)
    cases axis with
    | x => exact ihcounters .x
    | y => exact ihcounters .y
    | z => exact ihcounters .z
  const value := Cond.canonical_const value
  greater lhs rhs ih₁ ih₂ := Cond.canonical_gt ih₁ ih₂
  all conds ih := by
    rw [Cond.transform, Cond.transformList_eq]
    exact Cond.canonical_and (List.forall_mem_map.2 ih)

/-- A transformation gives a canonical tree if all its replacements are canonical. -/
theorem canonical_transform (ht : ∀ e u, t e = some u → u.Canonical) (e : Expr K) :
    (e.transform t).Canonical :=
  Expr.induct (canonicalSteps ht) e

end Expr

/-! ### Nothing is left to simplify -/

namespace Expr

theorem map_eq_self {es : List (Expr K)} {g : Expr K → Expr K}
    (h : ∀ e ∈ es, e.Canonical → g e = e) (hes : ∀ e ∈ es, e.Canonical) : es.map g = es :=
  (List.map_congr_left fun e he => h e he (hes e he)).trans (List.map_id _)

variable [NeutralScalar K]

/-- The induction behind `Expr.rebuild_eq`. -/
theorem rebuildSteps : Expr.InductionSteps (K := K) (fun e => e.Canonical → e.rebuild = e)
    (fun c => c.Canonical → (c.transform fun _ => none) = c) where
  num value _ := rfl
  symbol s _ := rfl
  access a _ := rfl
  counter axis _ := rfl
  sum terms ih h := by
    obtain ⟨hself, hterms⟩ := all_sum.1 h
    change add (Expr.transformList _ terms) = _
    rw [transformList_eq]
    exact (congrArg add (map_eq_self ih hterms)).trans hself.add
  prod factors ih h := by
    obtain ⟨hself, hfactors⟩ := all_prod.1 h
    change mul (Expr.transformList _ factors) = _
    rw [transformList_eq]
    exact (congrArg mul (map_eq_self ih hfactors)).trans hself.mul
  power base exponent ih₁ ih₂ h := by
    obtain ⟨hself, h₁, h₂⟩ := all_power.1 h
    exact (congrArg₂ pow (ih₁ h₁) (ih₂ h₂)).trans (pow_eq_power_iff.2 hself)
  call g args ih h := by
    obtain ⟨hself, hargs⟩ := all_call.1 h
    change apply g (Expr.transformList _ args) = _
    rw [transformList_eq]
    exact (congrArg (apply g) (map_eq_self ih hargs)).trans (apply_eq_call_iff.2 hself)
  modulo value modulus ih₁ ih₂ h := by
    obtain ⟨hself, h₁, h₂⟩ := all_modulo.1 h
    exact (congrArg₂ mod (ih₁ h₁) (ih₂ h₂)).trans (mod_eq_modulo_iff.2 hself)
  deriv arg axis ih h := by
    obtain ⟨hself, harg⟩ := all_deriv.1 h
    exact (congrArg (fun e => e.diff axis) (ih harg)).trans (diff_eq_deriv_iff.2 hself)
  select cond whenTrue whenFalse ihc ih₁ ih₂ h := by
    obtain ⟨hself, hc, h₁, h₂⟩ := all_select.1 h
    have hcond := ihc ⟨hself.2.1, hc⟩
    change piecewise (cond.transform _) whenTrue.rebuild whenFalse.rebuild = _
    rw [hcond, ih₁ h₁, ih₂ h₂]
    exact piecewise_eq_select_iff.2 ⟨hself.1, hself.2.2⟩
  random key ihcounters iht ihs h := by
    obtain ⟨⟨x, y, z⟩, channel, timeStep, seed⟩ := key
    obtain ⟨-, hcounters, ht, hs⟩ := all_random.1 h
    have hx : x.rebuild = x := ihcounters .x (hcounters .x)
    have hy : y.rebuild = y := ihcounters .y (hcounters .y)
    have hz : z.rebuild = z := ihcounters .z (hcounters .z)
    change random ⟨⟨x.rebuild, y.rebuild, z.rebuild⟩, channel, timeStep.rebuild, seed.rebuild⟩ = _
    rw [hx, hy, hz, iht ht, ihs hs]
  const value _ := rfl
  greater lhs rhs ih₁ ih₂ h := by
    obtain ⟨hself, hall⟩ := h
    obtain ⟨h₁, h₂⟩ := Cond.all_greater.1 hall
    exact (congrArg₂ Cond.gt (ih₁ h₁) (ih₂ h₂)).trans (Cond.gt_eq_greater_iff.2 hself)
  all conds ih h := by
    obtain ⟨hself, hall⟩ := h
    have hconds : conds.map (Cond.transform fun _ => none) = conds := by
      refine (List.map_congr_left fun c hc => ih c hc ?_).trans (List.map_id _)
      exact ⟨Cond.settled_of_isOpen (hself.2 c hc), Cond.all_all.1 hall c hc⟩
    rw [Cond.transform, Cond.transformList_eq, hconds]
    exact hself.and

/-- Building a canonical tree again gives the tree itself. -/
theorem rebuild_eq {e : Expr K} (h : e.Canonical) : e.rebuild = e :=
  Expr.induct rebuildSteps e h

/-- **Canonical form is kept**: every building function and every operator makes canonical trees of
canonical parts, every transformation with canonical replacements makes a canonical tree of any tree,
and building a canonical tree again gives the tree itself. -/
theorem canonical_form_kept :
    (∀ es : List (Expr K), (∀ e ∈ es, e.Canonical) →
      (add es).Canonical ∧ (mul es).Canonical ∧ ∀ g, (apply g es).Canonical) ∧
    (∀ e f : Expr K, e.Canonical → f.Canonical →
      (pow e f).Canonical ∧ (e.mod f).Canonical ∧ e.sqrt.Canonical ∧ e.abs.Canonical ∧
        (e.min f).Canonical ∧ (e.max f).Canonical ∧ (Cond.gt e f).Canonical ∧
        (∀ axis, (e.diff axis).Canonical) ∧
        ∀ c : Cond K, c.Canonical → (piecewise c e f).Canonical) ∧
    (∀ cs : List (Cond K), (∀ c ∈ cs, c.Canonical) → (Cond.and cs).Canonical) ∧
    (∀ key : RandomKey (Expr K), (∀ axis, (key.counters.get axis).Canonical) →
      key.timeStep.Canonical → key.seed.Canonical → (random key).Canonical) ∧
    (∀ e f : Expr K, e.Canonical → f.Canonical →
      (e + f).Canonical ∧ (e - f).Canonical ∧ (e * f).Canonical ∧ (e / f).Canonical ∧
        (-e).Canonical ∧ ∀ a : K, (e / a).Canonical) ∧
    (∀ (e : Expr K) (t : Expr K → Option (Expr K)), (∀ u v, t u = some v → v.Canonical) →
      (e.transform t).Canonical) ∧
    (∀ e : Expr K, e.Canonical → e.rebuild = e) := by
  have hcall (g : Func) (es : List (Expr K)) (h : ∀ e ∈ es, e.Canonical) :
      (apply g es).Canonical := canonical_apply g h
  refine ⟨fun es h => ⟨canonical_add h, canonical_mul h, fun g => hcall g es h⟩, ?_,
    fun cs => Cond.canonical_and, fun key => canonical_random, ?_,
    fun e t ht => canonical_transform ht e, fun e => rebuild_eq⟩
  · intro e f he hf
    have hone : ∀ t ∈ [e], t.Canonical := by simpa using he
    have hpair : ∀ t ∈ [e, f], t.Canonical := by simpa using ⟨he, hf⟩
    exact ⟨canonical_pow he hf, canonical_mod he hf, hcall _ _ hone, hcall _ _ hone,
      hcall _ _ hpair, hcall _ _ hpair, Cond.canonical_gt he hf, fun axis => canonical_diff axis he,
      fun c hc => canonical_piecewise hc he hf⟩
  · intro e f he hf
    exact ⟨canonical_add_pair he hf, canonical_sub he hf, canonical_mul_pair he hf,
      canonical_div he hf, canonical_neg he, canonical_div_scalar he⟩

/-- A sum of doubles in canonical form, and one that is not. -/
theorem canonical_form_kept_doubles :
    let flat : Expr Float := .sum [.access ⟨"c", 0, 0⟩, .num 3]
    let nested : Expr Float := .sum [.num 1, .sum [.num 2, .access ⟨"c", 0, 0⟩]]
    flat.rebuild = flat ∧ (flat / flat).Canonical ∧ ¬ nested.Canonical ∧ nested.rebuild.Canonical := by
  intro flat nested
  have hflat : flat.Canonical := by decide
  obtain ⟨-, -, -, -, hoperators, htransform, hrebuild⟩ := canonical_form_kept (K := Float)
  exact ⟨hrebuild flat hflat, (hoperators flat flat hflat hflat).2.2.2.1, by decide,
    htransform nested _ fun _ _ h => by cases h⟩

end Expr

end Electrokinetics
