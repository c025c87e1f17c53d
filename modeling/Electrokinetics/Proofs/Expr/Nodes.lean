/-
**The nodes of an expression.**

What a kernel may do is said node by node: which fields are read where, which parameters occur, that
no derivative is left.  The building functions only ever add nodes of five kinds, and applications
with as many arguments as they were given, so a property of nodes that these meet passes from the
parts to whatever is built from them.

Main definitions:

* `Expr.All`, `Cond.All` — a property of all nodes;
* `Expr.Combines` — the building functions keep a property of nodes;
* `Expr.AllAt` — what a transformation makes of a node has a property.

Main results:

* `Expr.All.all` — nodes of nodes;
* `Expr.All.add`, `Expr.All.mul`, `Expr.All.piecewise`, … — the building functions;
* `Expr.All.transform` — transformations.
-/

import Electrokinetics.Expr.Transform

set_option relaxedAutoImplicit false
set_option autoImplicit false

namespace Electrokinetics

variable {K : Type} {q q' : Expr K → Prop}

/-- All nodes of an expression have a property. -/
def Expr.All (q : Expr K → Prop) (e : Expr K) : Prop := ∀ t ∈ e.subterms, q t

/-- All nodes of the expressions of a condition have a property. -/
def Cond.All (q : Expr K → Prop) (c : Cond K) : Prop := ∀ t ∈ c.subterms, q t

/-! ### One node -/

namespace Expr

theorem all_subtermsList {es : List (Expr K)} :
    (∀ t ∈ Expr.subtermsList es, q t) ↔ ∀ e ∈ es, e.All q := by
  rw [subtermsList_eq]
  constructor
  · intro h e he t ht
    exact h t (List.mem_flatMap_of_mem he ht)
  · intro h t ht
    obtain ⟨e, he, ht⟩ := List.mem_flatMap.1 ht
    exact h e he t ht

@[simp] theorem all_num {value : K} : (num value).All q ↔ q (num value) := by
  simp [All, subterms]

@[simp] theorem all_symbol {s : Symbol} : (symbol s).All q ↔ q (symbol s) := by
  simp [All, subterms]

@[simp] theorem all_access {a : Access} : (access a).All q ↔ q (access a) := by
  simp [All, subterms]

@[simp] theorem all_counter {axis : Axis} : (counter axis).All q ↔ q (counter axis) := by
  simp [All, subterms]

@[simp] theorem all_sum {es : List (Expr K)} :
    (sum es).All q ↔ q (sum es) ∧ ∀ e ∈ es, e.All q := by
  rw [← all_subtermsList]
  simp [All, subterms]

@[simp] theorem all_prod {es : List (Expr K)} :
    (prod es).All q ↔ q (prod es) ∧ ∀ e ∈ es, e.All q := by
  rw [← all_subtermsList]
  simp [All, subterms]

@[simp] theorem all_call {f : Func} {es : List (Expr K)} :
    (call f es).All q ↔ q (call f es) ∧ ∀ e ∈ es, e.All q := by
  rw [← all_subtermsList]
  simp [All, subterms]

@[simp] theorem all_power {b e : Expr K} :
    (power b e).All q ↔ q (power b e) ∧ b.All q ∧ e.All q := by
  simp [All, subterms, or_imp, forall_and]

@[simp] theorem all_modulo {a m : Expr K} :
    (modulo a m).All q ↔ q (modulo a m) ∧ a.All q ∧ m.All q := by
  simp [All, subterms, or_imp, forall_and]

@[simp] theorem all_deriv {e : Expr K} {axis : Axis} :
    (deriv e axis).All q ↔ q (deriv e axis) ∧ e.All q := by
  simp [All, subterms]

@[simp] theorem all_select {c : Cond K} {e f : Expr K} :
    (select c e f).All q ↔ q (select c e f) ∧ c.All q ∧ e.All q ∧ f.All q := by
  simp [All, Cond.All, subterms, or_imp, forall_and]

theorem all_random {key : RandomKey (Expr K)} :
    (random key).All q ↔ q (random key) ∧ (∀ axis, (key.counters.get axis).All q) ∧
      key.timeStep.All q ∧ key.seed.All q := by
  obtain ⟨⟨x, y, z⟩, channel, t, s⟩ := key
  constructor
  · intro h
    refine ⟨h _ (self_mem_subterms _), fun axis u hu => h u ?_, fun u hu => h u ?_,
      fun u hu => h u ?_⟩
    · cases axis <;> simp only [PerAxis.get] at hu <;> simp [subterms, hu]
    · simp [subterms, hu]
    · simp [subterms, hu]
  · rintro ⟨hself, hcounters, ht, hs⟩ u hu
    simp only [subterms, List.mem_cons, List.mem_append] at hu
    rcases hu with rfl | (((hu | hu) | hu) | hu) | hu
    · exact hself
    · exact hcounters .x u hu
    · exact hcounters .y u hu
    · exact hcounters .z u hu
    · exact ht u hu
    · exact hs u hu

theorem All.mono {e : Expr K} (h : e.All q) (hqq' : ∀ t, q t → q' t) : e.All q' :=
  fun t ht => hqq' t (h t ht)

theorem All.self {e : Expr K} (h : e.All q) : q e := h e (self_mem_subterms e)

end Expr

namespace Cond

@[simp] theorem all_const (value : Bool) : (const value : Cond K).All q := by
  simp [All, subterms]

@[simp] theorem all_greater {e f : Expr K} : (greater e f).All q ↔ e.All q ∧ f.All q := by
  simp [All, Expr.All, subterms, or_imp, forall_and]

@[simp] theorem all_all {cs : List (Cond K)} : (all cs).All q ↔ ∀ c ∈ cs, c.All q := by
  rw [All, subterms, subtermsList_eq]
  constructor
  · intro h c hc t ht
    exact h t (List.mem_flatMap_of_mem hc ht)
  · intro h t ht
    obtain ⟨c, hc, ht⟩ := List.mem_flatMap.1 ht
    exact h c hc t ht

end Cond

/-! ### Nodes of nodes -/

/-- The induction behind `Expr.All.all`. -/
theorem Expr.allAllSteps : Expr.InductionSteps (K := K)
    (fun e => e.All q → e.All fun t => t.All q) (fun c => c.All q → c.All fun t => t.All q) where
  num value h := all_num.2 h
  symbol s h := all_symbol.2 h
  access a h := all_access.2 h
  counter axis h := all_counter.2 h
  sum terms ih h := all_sum.2 ⟨h, fun e he => ih e he ((all_sum.1 h).2 e he)⟩
  prod factors ih h := all_prod.2 ⟨h, fun e he => ih e he ((all_prod.1 h).2 e he)⟩
  power base exponent ih₁ ih₂ h := by
    obtain ⟨-, h₁, h₂⟩ := all_power.1 h
    exact all_power.2 ⟨h, ih₁ h₁, ih₂ h₂⟩
  call g args ih h := all_call.2 ⟨h, fun e he => ih e he ((all_call.1 h).2 e he)⟩
  modulo value modulus ih₁ ih₂ h := by
    obtain ⟨-, h₁, h₂⟩ := all_modulo.1 h
    exact all_modulo.2 ⟨h, ih₁ h₁, ih₂ h₂⟩
  deriv arg axis ih h := all_deriv.2 ⟨h, ih (all_deriv.1 h).2⟩
  select cond whenTrue whenFalse ihc ih₁ ih₂ h := by
    obtain ⟨-, hc, h₁, h₂⟩ := all_select.1 h
    exact all_select.2 ⟨h, ihc hc, ih₁ h₁, ih₂ h₂⟩
  random key ihcounters iht ihs h := by
    obtain ⟨-, hcounters, ht, hs⟩ := all_random.1 h
    exact all_random.2 ⟨h, fun axis => ihcounters axis (hcounters axis), iht ht, ihs hs⟩
  const value _ := Cond.all_const value
  greater lhs rhs ih₁ ih₂ h := by
    obtain ⟨h₁, h₂⟩ := Cond.all_greater.1 h
    exact Cond.all_greater.2 ⟨ih₁ h₁, ih₂ h₂⟩
  all conds ih h := Cond.all_all.2 fun c hc => ih c hc (Cond.all_all.1 h c hc)

/-- The nodes of a node of an expression are nodes of the expression. -/
theorem Expr.All.all {e : Expr K} (h : e.All q) : e.All fun t => t.All q :=
  Expr.induct Expr.allAllSteps e h

/-! ### Building functions -/

namespace Expr

/-- The building functions keep a property of nodes: it holds of the nodes that they add, and what
an application or a remainder is applied to does not matter for it. -/
structure Combines (q : Expr K → Prop) : Prop where
  num : ∀ value, q (num value)
  sum : ∀ es, q (sum es)
  prod : ∀ es, q (prod es)
  power : ∀ b e, q (power b e)
  select : ∀ c e f, q (select c e f)
  call : ∀ f es, es.length = f.arity → q (call f es)
  call_congr : ∀ f es fs, es.length = fs.length → q (Expr.call f es) → q (Expr.call f fs)
  modulo_congr : ∀ a m a' m', q (modulo a m) → q (modulo a' m')

end Expr

namespace Expr.All

variable {e f : Expr K} {es : List (Expr K)}

theorem addends (h : e.All q) : ∀ t ∈ e.addends, t.All q := by
  cases e with
  | sum terms => exact (all_sum.1 h).2
  | _ =>
      intro t ht
      rw [List.mem_singleton.1 ht]
      exact h

theorem factors (h : e.All q) : ∀ t ∈ e.factors, t.All q := by
  cases e with
  | prod es => exact (all_prod.1 h).2
  | _ =>
      intro t ht
      rw [List.mem_singleton.1 ht]
      exact h

theorem symbolic (h : ∀ t ∈ es, t.All q) : ∀ t ∈ Expr.symbolic es, t.All q :=
  fun t ht => h t (List.mem_filter.1 ht).1

theorem flatMap {g : Expr K → List (Expr K)} (hg : ∀ e, e.All q → ∀ t ∈ g e, t.All q)
    (h : ∀ t ∈ es, t.All q) : ∀ t ∈ es.flatMap g, t.All q := by
  intro t ht
  obtain ⟨e, he, ht⟩ := List.mem_flatMap.1 ht
  exact hg e (h e he) t ht

variable [Scalar K] (hq : Combines q)

include hq

theorem add (h : ∀ t ∈ es, t.All q) : (Expr.add es).All q := by
  have hterms := symbolic (flatMap (fun _ => addends) h)
  have hall (c : K) : ∀ t ∈ Expr.symbolic (es.flatMap Expr.addends) ++
      (if Scalar.isZero c then [] else [.num c]), t.All q := by
    intro t ht
    rcases List.mem_append.1 ht with ht | ht
    · exact hterms t ht
    · split at ht
      · cases ht
      · rw [List.mem_singleton.1 ht]
        exact all_num.2 (hq.num c)
  specialize hall ((Expr.numbers (es.flatMap Expr.addends)).foldl Scalar.add Scalar.zero)
  unfold Expr.add
  simp only
  split
  · exact all_num.2 (hq.num _)
  · rename_i heq
    rw [heq] at hall
    exact hall _ (List.mem_singleton_self _)
  · exact all_sum.2 ⟨hq.sum _, hall⟩

theorem mul (h : ∀ t ∈ es, t.All q) : (Expr.mul es).All q := by
  have hfactors := symbolic (flatMap (fun _ => factors) h)
  have hnum (c : K) : (Expr.num c).All q := all_num.2 (hq.num c)
  unfold Expr.mul
  simp only
  split
  · exact hnum _
  · split
    · exact hnum _
    · rename_i heq
      rw [heq] at hfactors
      split
      · split
        · exact hfactors _ (List.mem_singleton_self _)
        · exact all_prod.2 ⟨hq.prod _, hfactors⟩
      · exact all_prod.2 ⟨hq.prod _, List.forall_mem_cons.2 ⟨hnum _, hfactors⟩⟩

theorem pow (he : e.All q) (hf : f.All q) : (Expr.pow e f).All q := by
  have hnum (c : K) : (Expr.num c).All q := all_num.2 (hq.num c)
  have hpower : (power e f).All q := all_power.2 ⟨hq.power e f, he, hf⟩
  unfold Expr.pow
  split
  · split
    · exact he
    · split
      · exact hnum _
      · exact hnum _
  · split
    · exact he
    · split
      · exact hnum _
      · exact hpower
  · split
    · exact hnum _
    · exact hpower
  · exact hpower

theorem apply {g : Func} (hcall : q (call g es)) (h : ∀ t ∈ es, t.All q) :
    (Expr.apply g es).All q := by
  unfold Expr.apply
  split
  · exact all_num.2 (hq.num _)
  · exact all_call.2 ⟨hcall, h⟩

theorem sqrt (h : e.All q) : e.sqrt.All q := apply hq (hq.call _ _ rfl) (by simpa using h)

theorem abs (h : e.All q) : e.abs.All q := apply hq (hq.call _ _ rfl) (by simpa using h)

theorem min (he : e.All q) (hf : f.All q) : (e.min f).All q :=
  apply hq (hq.call _ _ rfl) (by simpa using ⟨he, hf⟩)

theorem max (he : e.All q) (hf : f.All q) : (e.max f).All q :=
  apply hq (hq.call _ _ rfl) (by simpa using ⟨he, hf⟩)

theorem mod (hmodulo : q (modulo e f)) (he : e.All q) (hf : f.All q) : (e.mod f).All q := by
  have hall : (modulo e f).All q := all_modulo.2 ⟨hmodulo, he, hf⟩
  unfold Expr.mod
  split
  · split
    · exact hall
    · exact all_num.2 (hq.num _)
  · exact hall

theorem diff {axis : Axis} (hderiv : q (deriv e axis)) (he : e.All q) : (e.diff axis).All q := by
  unfold Expr.diff
  split
  · exact all_deriv.2 ⟨hderiv, he⟩
  · exact all_num.2 (hq.num _)

theorem piecewise {c : Cond K} (hc : c.All q) (he : e.All q) (hf : f.All q) :
    (Expr.piecewise c e f).All q := by
  unfold Expr.piecewise
  split
  · exact he
  · exact hf
  · split
    · exact he
    · exact all_select.2 ⟨hq.select _ _ _, hc, he, hf⟩

theorem add_pair (he : e.All q) (hf : f.All q) : (e + f).All q := by
  have hterms : ∀ t ∈ [e, f], t.All q := by simpa using ⟨he, hf⟩
  exact add hq hterms

theorem mul_pair (he : e.All q) (hf : f.All q) : (e * f).All q := by
  have hfactors : ∀ t ∈ [e, f], t.All q := by simpa using ⟨he, hf⟩
  exact mul hq hfactors

theorem mul_num (he : e.All q) (a : K) : (e * .num a).All q :=
  mul_pair hq he (all_num.2 (hq.num a))

theorem num_mul (he : e.All q) (a : K) : (.num a * e).All q :=
  mul_pair hq (all_num.2 (hq.num a)) he

theorem neg (he : e.All q) : (-e).All q := num_mul hq he _

theorem sub (he : e.All q) (hf : f.All q) : (e - f).All q := add_pair hq he (neg hq hf)

theorem div_scalar (he : e.All q) (b : K) : (e / b).All q := mul_num hq he _

end Expr.All

namespace Cond.All

theorem gt [Scalar K] {e f : Expr K} (he : e.All q) (hf : f.All q) : (Cond.gt e f).All q := by
  unfold Cond.gt
  split
  · exact all_const _
  · exact all_greater.2 ⟨he, hf⟩

theorem conjuncts {c : Cond K} (h : c.All q) : ∀ d ∈ c.conjuncts, d.All q := by
  unfold Cond.conjuncts
  split
  · intro d hd
    cases hd
  · exact all_all.1 h
  · intro d hd
    rw [List.mem_singleton.1 hd]
    exact h

theorem and {cs : List (Cond K)} (h : ∀ c ∈ cs, c.All q) : (Cond.and cs).All q := by
  have hopen : ∀ d ∈ cs.flatMap Cond.conjuncts, d.All q := by
    intro d hd
    obtain ⟨c, hc, hd⟩ := List.mem_flatMap.1 hd
    exact conjuncts (h c hc) d hd
  unfold Cond.and
  split
  · exact all_const _
  · split
    · exact all_const _
    · rename_i heq
      rw [heq] at hopen
      exact hopen _ (List.mem_singleton_self _)
    · exact all_all.2 hopen

end Cond.All

/-! ### Transformations -/

variable {f : Expr K → Option (Expr K)}

namespace Expr

/-- What a transformation makes of a node has a property at all its nodes.  A derivative or a draw
that is not replaced may be built again with other parts. -/
def AllAt (q : Expr K → Prop) (f : Expr K → Option (Expr K)) (t : Expr K) : Prop :=
  match f t, t with
  | some r, _ => r.All q
  | none, .deriv _ axis => ∀ e, q (deriv e axis)
  | none, .random _ => ∀ key, q (random key)
  | none, t => q t

theorem allAt_some {t r : Expr K} (hf : f t = some r) : AllAt q f t ↔ r.All q := by
  unfold AllAt
  rw [hf]

/-- A node that is not replaced keeps the property. -/
theorem AllAt.of_none {t : Expr K} (h : AllAt q f t) (hf : f t = none) : q t := by
  cases t with
  | deriv arg axis =>
      simp only [AllAt, hf] at h
      exact h arg
  | random key =>
      simp only [AllAt, hf] at h
      exact h key
  | _ =>
      simp only [AllAt, hf] at h
      exact h

theorem AllAt.getD {t r : Expr K} (h : AllAt q f t) (hrebuilt : f t = none → q t → r.All q) :
    ((f t).getD r).All q := by
  cases hf : f t with
  | some u => exact (allAt_some hf).1 h
  | none => exact hrebuilt hf (h.of_none hf)

variable [Scalar K]

theorem all_transformList {es : List (Expr K)}
    (ih : ∀ e ∈ es, e.All (AllAt q f) → (e.transform f).All q) (h : ∀ e ∈ es, e.All (AllAt q f)) :
    ∀ t ∈ Expr.transformList f es, t.All q := by
  rw [transformList_eq]
  intro t ht
  obtain ⟨e, he, rfl⟩ := List.mem_map.1 ht
  exact ih e he (h e he)

/-- The induction behind `Expr.All.transform`. -/
theorem allSteps (hq : Combines q) : Expr.InductionSteps (K := K)
    (fun e => e.All (AllAt q f) → (e.transform f).All q)
    (fun c => c.All (AllAt q f) → (c.transform f).All q) where
  num value h := h.self.getD fun _ => all_num.2
  symbol s h := h.self.getD fun _ => all_symbol.2
  access a h := h.self.getD fun _ => all_access.2
  counter axis h := h.self.getD fun _ => all_counter.2
  sum terms ih h := h.self.getD fun _ _ => All.add hq (all_transformList ih (all_sum.1 h).2)
  prod factors ih h := h.self.getD fun _ _ => All.mul hq (all_transformList ih (all_prod.1 h).2)
  power base exponent ih₁ ih₂ h := by
    obtain ⟨hself, h₁, h₂⟩ := all_power.1 h
    exact hself.getD fun _ _ => All.pow hq (ih₁ h₁) (ih₂ h₂)
  call g args ih h := by
    obtain ⟨hself, hargs⟩ := all_call.1 h
    refine hself.getD fun _ hcall => All.apply hq ?_ (all_transformList ih hargs)
    refine hq.call_congr g args _ ?_ hcall
    rw [transformList_eq, List.length_map]
  modulo value modulus ih₁ ih₂ h := by
    obtain ⟨hself, h₁, h₂⟩ := all_modulo.1 h
    exact hself.getD fun _ hmodulo =>
      All.mod hq (hq.modulo_congr _ _ _ _ hmodulo) (ih₁ h₁) (ih₂ h₂)
  deriv arg axis ih h := by
    obtain ⟨hself, harg⟩ := all_deriv.1 h
    refine hself.getD fun hf _ => All.diff hq ?_ (ih harg)
    -- The derivative is now one of the transformed expression.
    simp only [AllAt, hf] at hself
    exact hself _
  select cond whenTrue whenFalse ihc ih₁ ih₂ h := by
    obtain ⟨hself, hc, h₁, h₂⟩ := all_select.1 h
    exact hself.getD fun _ _ => All.piecewise hq (ihc hc) (ih₁ h₁) (ih₂ h₂)
  random key ihc iht ihs h := by
    obtain ⟨⟨x, y, z⟩, channel, t, s⟩ := key
    obtain ⟨hself, hc, ht, hs⟩ := all_random.1 h
    refine hself.getD fun hf _ => all_random.2 ⟨?_, fun axis => ?_, iht ht, ihs hs⟩
    · simp only [AllAt, hf] at hself
      exact hself _
    · cases axis with
      | x => exact ihc .x (hc .x)
      | y => exact ihc .y (hc .y)
      | z => exact ihc .z (hc .z)
  const value _ := Cond.all_const value
  greater lhs rhs ih₁ ih₂ h := by
    obtain ⟨h₁, h₂⟩ := Cond.all_greater.1 h
    exact Cond.All.gt (ih₁ h₁) (ih₂ h₂)
  all conds ih h := by
    rw [Cond.transform, Cond.transformList_eq]
    refine Cond.All.and fun c hc => ?_
    obtain ⟨d, hd, rfl⟩ := List.mem_map.1 hc
    exact ih d hd (Cond.all_all.1 h d hd)

theorem All.transform (hq : Combines q) {e : Expr K} (h : e.All (AllAt q f)) :
    (e.transform f).All q :=
  Expr.induct (allSteps hq) e h

end Expr

end Electrokinetics
