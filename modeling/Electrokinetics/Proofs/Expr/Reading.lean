/-
**Expressions that always have a value.**

Evaluation can only fail where something is looked up, at a modulus, at a derivative, at a random key
and at a function with too few or too many arguments.  An expression whose nodes look up fields and
parameters and otherwise combine values therefore has a value wherever what it looks up has one.

Main definitions:

* `Expr.Reading` — a node that looks up one of some accesses or parameters, or combines values.

Main results:

* `Expr.combines_reading` — the building functions add such nodes only;
* `Expr.exists_eval` — a value exists where the accesses and parameters have values;
* `Expr.All.keeps_eval` — the value depends on these only.
-/

import Electrokinetics.Proofs.Expr.Lookup

set_option relaxedAutoImplicit false
set_option autoImplicit false

namespace Electrokinetics

namespace Expr

variable {K : Type} {A : Access → Prop} {S : Symbol → Prop}

/-- A node looks up one of some accesses or parameters, or combines the values below it. -/
def Reading (A : Access → Prop) (S : Symbol → Prop) : Expr K → Prop
  | .num _ => True
  | .symbol s => S s
  | .access a => A a
  | .counter _ => False
  | .sum _ => True
  | .prod _ => True
  | .power _ _ => True
  | .call f es => es.length = f.arity
  | .modulo _ _ => False
  | .deriv _ _ => False
  | .select _ _ _ => True
  | .random _ => False

theorem combines_reading : Combines (K := K) (Reading A S) where
  num _ := trivial
  sum _ := trivial
  prod _ := trivial
  power _ _ := trivial
  select _ _ _ := trivial
  call _ _ h := h
  call_congr _ _ _ h hcall := h.symm.trans hcall
  modulo_congr _ _ _ _ h := h

theorem All.of_mem_accesses {e : Expr K} (h : e.All (Reading A S)) {a : Access}
    (ha : a ∈ e.accesses) : A a := h _ (mem_accesses.1 ha)

theorem All.of_mem_symbols {e : Expr K} (h : e.All (Reading A S)) {s : Symbol}
    (hs : s ∈ e.symbols) : S s := h _ (mem_symbols.1 hs)

/-- The parameters that an expression may look up are those that it does look up. -/
theorem All.reading_symbols {e : Expr K} (h : e.All (Reading A S)) :
    e.All (Reading A (· ∈ e.symbols)) := by
  intro t ht
  have hself := h t ht
  cases t with
  | symbol s => exact mem_symbols.2 ht
  | _ => exact hself

/-! ### Evaluation -/

variable [Scalar K] {env : Env K}

theorem exists_evalList {es : List (Expr K)} (h : ∀ e ∈ es, ∃ v, e.eval env = .ok v) :
    ∃ values, evalList env es = .ok values ∧ values.length = es.length := by
  induction es with
  | nil => exact ⟨[], rfl, rfl⟩
  | cons e es ih =>
      obtain ⟨v, hv⟩ := h e List.mem_cons_self
      obtain ⟨values, hvalues, hlength⟩ := ih fun e he => h e (List.mem_cons_of_mem _ he)
      exact ⟨v :: values, evalList_cons_eq_ok_iff.2 ⟨v, values, hv, hvalues, rfl⟩,
        congrArg (· + 1) hlength⟩

theorem exists_evalAll {cs : List (Cond K)} (h : ∀ c ∈ cs, ∃ b, c.eval env = .ok b) :
    ∃ b, Cond.evalAll env cs = .ok b := by
  induction cs with
  | nil => exact ⟨true, rfl⟩
  | cons c cs ih =>
      obtain ⟨b, hb⟩ := h c List.mem_cons_self
      obtain ⟨rest, hrest⟩ := ih fun c hc => h c (List.mem_cons_of_mem _ hc)
      cases b with
      | true => exact ⟨rest, bind_eq_ok.2 ⟨true, hb, hrest⟩⟩
      | false => exact ⟨false, bind_eq_ok.2 ⟨false, hb, rfl⟩⟩

/-- The induction behind `Expr.exists_eval`. -/
theorem evalSteps
    (hA : ∀ a, A a → ∃ v, env.fields a.field a.component (env.cell + a.offset) = some v)
    (hS : ∀ s, S s → ∃ v, env.bindings.get? s.name = some v) :
    Expr.InductionSteps (K := K) (fun e => e.All (Reading A S) → ∃ v, e.eval env = .ok v)
      (fun c => c.All (Reading A S) → ∃ b, c.eval env = .ok b) where
  num value _ := ⟨value, rfl⟩
  symbol s h := (hS s h.self).imp fun _ => eval_symbol
  access a h := (hA a h.self).imp fun _ => eval_access
  counter axis h := absurd h.self id
  sum terms ih h := by
    obtain ⟨values, hvalues, -⟩ := exists_evalList fun e he => ih e he ((all_sum.1 h).2 e he)
    exact ⟨_, bind_eq_ok.2 ⟨values, hvalues, rfl⟩⟩
  prod factors ih h := by
    obtain ⟨values, hvalues, -⟩ := exists_evalList fun e he => ih e he ((all_prod.1 h).2 e he)
    exact ⟨_, bind_eq_ok.2 ⟨values, hvalues, rfl⟩⟩
  power base exponent ih₁ ih₂ h := by
    obtain ⟨-, h₁, h₂⟩ := all_power.1 h
    obtain ⟨x, hx⟩ := ih₁ h₁
    obtain ⟨y, hy⟩ := ih₂ h₂
    exact ⟨_, eval_power_eq_ok_iff.2 ⟨x, y, hx, hy, rfl⟩⟩
  call g args ih h := by
    obtain ⟨harity, hargs⟩ := all_call.1 h
    obtain ⟨values, hvalues, hlength⟩ := exists_evalList fun e he => ih e he (hargs e he)
    -- With as many values as the function takes there is a result.
    have hsome := (g.isSome_value?_iff values).2 (hlength.trans harity)
    obtain ⟨v, hv⟩ := Option.isSome_iff_exists.1 hsome
    refine ⟨v, bind_eq_ok.2 ⟨values, hvalues, ?_⟩⟩
    simp only [hv]
    rfl
  modulo value modulus _ _ h := absurd h.self id
  deriv arg axis _ h := absurd h.self id
  select cond whenTrue whenFalse ihc ih₁ ih₂ h := by
    obtain ⟨-, hc, h₁, h₂⟩ := all_select.1 h
    obtain ⟨b, hb⟩ := ihc hc
    cases b with
    | true =>
        obtain ⟨v, hv⟩ := ih₁ h₁
        exact ⟨v, bind_eq_ok.2 ⟨true, hb, hv⟩⟩
    | false =>
        obtain ⟨v, hv⟩ := ih₂ h₂
        exact ⟨v, bind_eq_ok.2 ⟨false, hb, hv⟩⟩
  random key _ _ _ h := absurd h.self id
  const value _ := ⟨value, rfl⟩
  greater lhs rhs ih₁ ih₂ h := by
    obtain ⟨h₁, h₂⟩ := Cond.all_greater.1 h
    obtain ⟨x, hx⟩ := ih₁ h₁
    obtain ⟨y, hy⟩ := ih₂ h₂
    exact ⟨_, bind_eq_ok.2 ⟨x, hx, bind_eq_ok.2 ⟨y, hy, rfl⟩⟩⟩
  all conds ih h := exists_evalAll fun c hc => ih c hc (Cond.all_all.1 h c hc)

/-- An expression that looks up and combines values has a value where what it looks up has one. -/
theorem exists_eval {e : Expr K} (h : e.All (Reading A S))
    (hA : ∀ a, A a → ∃ v, env.fields a.field a.component (env.cell + a.offset) = some v)
    (hS : ∀ s, S s → ∃ v, env.bindings.get? s.name = some v) : ∃ v, e.eval env = .ok v :=
  Expr.induct (evalSteps hA hS) e h

/-- What an expression does not look up does not change its value. -/
theorem All.keeps_eval {e : Expr K} (h : e.All (Reading A S)) {env' : Env K}
    (hA : ∀ a, A a → env'.fields a.field a.component (env'.cell + a.offset) =
      env.fields a.field a.component (env.cell + a.offset))
    (hS : ∀ s, S s → env'.bindings.get? s.name = env.bindings.get? s.name) :
    Keeps (e.eval env) (e.eval env') := by
  refine Expr.keeps_eval fun t ht hlookup => ?_
  have hreading := h t ht
  cases t with
  | symbol s =>
      simp only [eval, hS s hreading]
      exact Keeps.refl _
  | access a => exact keeps_access (hA a hreading)
  | counter axis => exact absurd hreading id
  | _ => cases hlookup

end Expr

end Electrokinetics
