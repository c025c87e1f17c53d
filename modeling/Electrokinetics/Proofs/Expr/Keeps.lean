/-
**Keeping values.**

An evaluation that fails says nothing about the expression, and simplifying an expression may turn a
failure into a value.  What simplification must not do is change a value: whatever the original
evaluates to, its replacement evaluates to as well.  This module has that relation between two
evaluations and its laws for every kind of node.

Main definitions:

* `Keeps` — whatever value the first computation gives, the second gives;
* `Composable` — what this relation has in common with equality.

Main results:

* `Keeps.bind` — sequences of computations that keep values;
* `Expr.keeps_evalList_map` — lists of expressions;
* `Expr.keeps_sum`, `Expr.keeps_select`, `Cond.keeps_all`, … — one congruence for each node, from
  values with any sources.
-/

import Electrokinetics.Proofs.Expr.Sourced
import Mathlib.Data.List.Forall2

set_option relaxedAutoImplicit false
set_option autoImplicit false

namespace Electrokinetics

/-! ### Computations that may fail -/

section Except

variable {ε α β : Type}

theorem bind_eq_ok {x : Except ε α} {f : α → Except ε β} {b : β} :
    (x >>= f) = .ok b ↔ ∃ a, x = .ok a ∧ f a = .ok b := by
  cases x with
  | error e =>
      constructor
      · intro h
        cases h
      · rintro ⟨a, h, -⟩
        cases h
  | ok a =>
      constructor
      · intro h
        exact ⟨a, rfl, h⟩
      · rintro ⟨a', h, hf⟩
        cases h
        exact hf

/-- A list of values that is computed one by one. -/
theorem bind_cons_eq_ok {x : Except ε α} {y : Except ε (List α)} {values : List α} :
    (do let a ← x; let rest ← y; return a :: rest) = .ok values ↔
      ∃ a rest, x = .ok a ∧ y = .ok rest ∧ values = a :: rest := by
  constructor
  · intro h
    obtain ⟨a, ha, h⟩ := bind_eq_ok.1 h
    obtain ⟨rest, hrest, h⟩ := bind_eq_ok.1 h
    cases h
    exact ⟨a, rest, ha, hrest, rfl⟩
  · rintro ⟨a, rest, ha, hrest, rfl⟩
    exact bind_eq_ok.2 ⟨a, ha, bind_eq_ok.2 ⟨rest, hrest, rfl⟩⟩

/-- Whatever value `x` gives, `y` gives. -/
def Keeps (x y : Except ε α) : Prop := ∀ a, x = .ok a → y = .ok a

namespace Keeps

variable {x y z : Except ε α}

theorem refl (x : Except ε α) : Keeps x x := fun _ h => h

theorem trans (h : Keeps x y) (h' : Keeps y z) : Keeps x z := fun a ha => h' a (h a ha)

theorem of_error (e : ε) : Keeps (.error e) x := by
  intro a h
  cases h

/-- The second steps only have to keep values at what the first step gives. -/
theorem bind {f g : α → Except ε β} (h : Keeps x y) (hf : ∀ a, x = .ok a → Keeps (f a) (g a)) :
    Keeps (x >>= f) (y >>= g) := by
  intro b hb
  obtain ⟨a, ha, hfa⟩ := bind_eq_ok.1 hb
  exact bind_eq_ok.2 ⟨a, h a ha, hf a ha b hfa⟩

theorem bind_left {f : α → Except ε β} (h : Keeps x y) : Keeps (x >>= f) (y >>= f) :=
  h.bind fun a _ => refl (f a)

end Keeps

/-- A relation that every computation has to itself and that passes through sequences of them.  Two
runs of one evaluation are compared by such a relation. -/
structure Composable (ε : Type) (R : ∀ α : Type, Except ε α → Except ε α → Prop) : Prop where
  refl : ∀ {α : Type} (x : Except ε α), R α x x
  bind : ∀ {α β : Type} {x y : Except ε α} {f g : α → Except ε β},
    R α x y → (∀ a, R β (f a) (g a)) → R β (x >>= f) (y >>= g)

theorem composable_eq : Composable ε fun _ x y => x = y where
  refl _ := rfl
  bind h hf := by rw [h, funext hf]

theorem composable_keeps : Composable ε fun _ => Keeps where
  refl := Keeps.refl
  bind h hf := h.bind fun a _ => hf a

end Except

variable {K : Type} [Scalar K] {env env' : Env K} {source : Expr K → Except (EvalError K) K}

/-! ### Lists -/

namespace Expr

theorem evalList_cons_eq_ok_iff {e : Expr K} {es : List (Expr K)} {values : List K} :
    evalList env (e :: es) = .ok values ↔
      ∃ a rest, e.eval env = .ok a ∧ evalList env es = .ok rest ∧ values = a :: rest :=
  bind_cons_eq_ok

theorem evalListFrom_cons_eq_ok_iff {e : Expr K} {es : List (Expr K)} {values : List K} :
    evalListFrom source (e :: es) = .ok values ↔
      ∃ a rest, e.evalFrom source = .ok a ∧ evalListFrom source es = .ok rest ∧
        values = a :: rest :=
  bind_cons_eq_ok

theorem evalList_pair {e f : Expr K} {a b : K} (he : e.eval env = .ok a) (hf : f.eval env = .ok b) :
    evalList env [e, f] = .ok [a, b] :=
  evalList_cons_eq_ok_iff.2 ⟨a, [b], he, evalList_cons_eq_ok_iff.2 ⟨b, [], hf, rfl, rfl⟩, rfl⟩

theorem keeps_evalList_map {f : Expr K → Expr K} {es : List (Expr K)}
    (h : ∀ e ∈ es, Keeps (e.evalFrom source) ((f e).eval env)) :
    Keeps (evalListFrom source es) (evalList env (es.map f)) := by
  induction es with
  | nil => exact Keeps.refl _
  | cons e es ih =>
      have hhead := h e List.mem_cons_self
      have htail := ih fun e he => h e (List.mem_cons_of_mem _ he)
      exact hhead.bind fun a _ => htail.bind_left

/-! ### Nodes -/

theorem eval_symbol {s : Symbol} {v : K} (h : env.bindings.get? s.name = some v) :
    (symbol s).eval env = .ok v := by
  simp only [eval, h]

theorem eval_access_eq_ok_iff {a : Access} {v : K} :
    (access a).eval env = .ok v ↔
      env.fields a.field a.component (env.cell + a.offset) = some v := by
  rw [eval]
  constructor
  · intro h
    split at h
    · rename_i hvalue
      rw [hvalue, Except.ok.inj h]
    · cases h
  · intro h
    simp only [h]

theorem eval_access {a : Access} {v : K}
    (h : env.fields a.field a.component (env.cell + a.offset) = some v) :
    (access a).eval env = .ok v := eval_access_eq_ok_iff.2 h

/-- Where there is no value the faults may differ, as they name the cell. -/
theorem keeps_access {a : Access} (h : env'.fields a.field a.component (env'.cell + a.offset) =
    env.fields a.field a.component (env.cell + a.offset)) :
    Keeps ((access a).eval env) ((access a).eval env') := by
  intro v hv
  rw [eval_access_eq_ok_iff] at hv ⊢
  rw [h, hv]

theorem eval_power_eq_ok_iff {b e : Expr K} {v : K} :
    (power b e).eval env = .ok v ↔
      ∃ x y, b.eval env = .ok x ∧ e.eval env = .ok y ∧ Scalar.pow x y = v := by
  constructor
  · intro h
    obtain ⟨x, hx, h⟩ := bind_eq_ok.1 h
    obtain ⟨y, hy, h⟩ := bind_eq_ok.1 h
    exact ⟨x, y, hx, hy, Except.ok.inj h⟩
  · rintro ⟨x, y, hx, hy, rfl⟩
    exact bind_eq_ok.2 ⟨x, hx, bind_eq_ok.2 ⟨y, hy, rfl⟩⟩

variable {e₁ e₂ f₁ f₂ : Expr K} {es fs : List (Expr K)}

theorem keeps_sum (h : Keeps (evalListFrom source es) (evalList env fs)) :
    Keeps ((sum es).evalFrom source) ((sum fs).eval env) := h.bind_left

theorem keeps_prod (h : Keeps (evalListFrom source es) (evalList env fs)) :
    Keeps ((prod es).evalFrom source) ((prod fs).eval env) := h.bind_left

theorem keeps_call (f : Func) (h : Keeps (evalListFrom source es) (evalList env fs)) :
    Keeps ((call f es).evalFrom source) ((call f fs).eval env) := h.bind_left

theorem keeps_power (h₁ : Keeps (e₁.evalFrom source) (f₁.eval env))
    (h₂ : Keeps (e₂.evalFrom source) (f₂.eval env)) :
    Keeps ((power e₁ e₂).evalFrom source) ((power f₁ f₂).eval env) :=
  h₁.bind fun _ _ => h₂.bind_left

theorem keeps_modulo (h₁ : Keeps (e₁.evalFrom source) (f₁.eval env))
    (h₂ : Keeps (e₂.evalFrom source) (f₂.eval env)) :
    Keeps ((modulo e₁ e₂).evalFrom source) ((modulo f₁ f₂).eval env) := by
  refine h₂.bind fun m _ => ?_
  split
  · exact Keeps.of_error _
  · exact h₁.bind_left

theorem keeps_deriv (axis : Axis) (x : Except (EvalError K) K) :
    Keeps ((deriv e₁ axis).eval env) x := Keeps.of_error _

theorem keeps_select {c d : Cond K} (hc : Keeps (c.evalFrom source) (d.eval env))
    (h₁ : Keeps (e₁.evalFrom source) (f₁.eval env)) (h₂ : Keeps (e₂.evalFrom source) (f₂.eval env)) :
    Keeps ((select c e₁ e₂).evalFrom source) ((select d f₁ f₂).eval env) := by
  refine hc.bind fun b _ => ?_
  cases b with
  | true => exact h₁
  | false => exact h₂

theorem keeps_random {k l : RandomKey (Expr K)} (hchannel : k.channel = l.channel)
    (hcounters : ∀ axis, Keeps ((k.counters.get axis).evalFrom source) ((l.counters.get axis).eval env))
    (htime : Keeps (k.timeStep.evalFrom source) (l.timeStep.eval env))
    (hseed : Keeps (k.seed.evalFrom source) (l.seed.eval env)) :
    Keeps ((random k).evalFrom source) ((random l).eval env) := by
  obtain ⟨⟨x, y, z⟩, channel, t, s⟩ := k
  obtain ⟨⟨x', y', z'⟩, channel', t', s'⟩ := l
  obtain rfl : channel = channel' := hchannel
  refine (hcounters .x).bind fun _ _ => (Keeps.refl _).bind fun _ _ => ?_
  refine (hcounters .y).bind fun _ _ => (Keeps.refl _).bind fun _ _ => ?_
  refine (hcounters .z).bind fun _ _ => (Keeps.refl _).bind fun _ _ => ?_
  refine htime.bind fun _ _ => (Keeps.refl _).bind fun _ _ => ?_
  exact hseed.bind fun _ _ => Keeps.refl _

end Expr

namespace Cond

theorem keeps_greater {e₁ e₂ f₁ f₂ : Expr K} (h₁ : Keeps (e₁.evalFrom source) (f₁.eval env))
    (h₂ : Keeps (e₂.evalFrom source) (f₂.eval env)) :
    Keeps ((greater e₁ e₂).evalFrom source) ((greater f₁ f₂).eval env) :=
  h₁.bind fun _ _ => h₂.bind_left

theorem keeps_all {f : Cond K → Cond K} {cs : List (Cond K)}
    (h : ∀ c ∈ cs, Keeps (c.evalFrom source) ((f c).eval env)) :
    Keeps ((all cs).evalFrom source) ((all (cs.map f)).eval env) := by
  change Keeps (evalAllFrom source cs) (evalAll env (cs.map f))
  induction cs with
  | nil => exact Keeps.refl _
  | cons c cs ih =>
      have hhead := h c List.mem_cons_self
      have htail := ih fun c hc => h c (List.mem_cons_of_mem _ hc)
      refine hhead.bind fun b _ => ?_
      cases b with
      | true => exact htail
      | false => exact Keeps.refl _

end Cond

end Electrokinetics
