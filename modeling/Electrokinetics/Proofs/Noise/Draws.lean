/-
**The random numbers of a kernel.**

A kernel with noise draws one random number for each staggered direction before it computes any flux,
and binds it under a name of its own.  A draw looks at the coordinates of the cell, the extents, the
time step and the seed, and none of these has the name of a random number: what was bound before a
draw does not change it.

Main definitions:

* `foldedNoise` — the subexpression that draws the random number of a direction;
* `drawParameters` — the parameters that a draw looks at;
* `foldedKey` — the key of such a draw;
* `RandomKey.address` — where a key reads the keystream;
* `KeystreamAddress.draw` — the number that is drawn at an address.

Main results:

* `RandomKey.eval_eq` — a key draws at its address;
* `address_foldedKey_of_key`, `eval_foldedDraw_of_key` — what a folded key reads and draws;
* `noiseName_ne_parameter` — no parameter has the name of a random number;
* `Collection.bindAll_foldedNoise` — what is bound after all draws.
-/

import Electrokinetics.Noise.Fluctuation
import Electrokinetics.Proofs.Sweep.GhostLayers
import Electrokinetics.Proofs.Transport.Faces

set_option relaxedAutoImplicit false
set_option autoImplicit false

namespace Electrokinetics

open Electrokinetics.Expr

variable {K : Type}

/-- The subexpression that draws the random number of a direction at the folded cell. -/
def foldedNoise (k : ℕ) : Subexpression K := ⟨⟨noiseName k, .real⟩, foldedDraw k⟩

theorem noiseName_ne_parameter (k : ℕ) (p : Parameter) : noiseName k ≠ p.name := by
  -- The name of a random number starts with a letter of its own.
  have hnoise : (noiseName k).toList.head? = some 'x' := by
    rw [noiseName, String.toList_append]
    rfl
  have hparameter : ∀ p ∈ Parameter.all, p.name.toList.head? ≠ some 'x' := by decide
  exact fun h => hparameter p (Parameter.mem_all p) (h ▸ hnoise)

/-- The parameters that a draw looks at. -/
def drawParameters : List Parameter := Axis.all.map .extent ++ [.timeStep, .seed]

theorem symbols_foldedDraw (k : ℕ) :
    (foldedDraw k : Expr K).symbols = drawParameters.map Parameter.symbol := rfl

/-- The key of a draw at the folded cell. -/
def foldedKey (channel : ℕ) : RandomKey (Expr K) :=
  ⟨PerAxis.ofFn fun axis => .modulo (.counter axis) (Parameter.extent axis).expr, channel,
    Parameter.timeStep.expr, Parameter.seed.expr⟩

theorem foldedDraw_eq (channel : ℕ) : (foldedDraw channel : Expr K) = .random (foldedKey channel) :=
  rfl

variable [Scalar K] {env : Env K}

/-! ### One draw -/

theorem eval_parameter {p : Parameter} {v : K} (h : env.bindings.get? p.name = some v) :
    p.expr.eval env = .ok v := eval_symbol h

/-- The number that is drawn at an address. -/
def KeystreamAddress.draw (a : KeystreamAddress) : K :=
  Scalar.div (Scalar.ofInt a.fraction) (Scalar.ofInt (Nat.pow 2 53))

/-- Where a key reads the keystream. -/
def RandomKey.address (env : Env K) (key : RandomKey (Expr K)) :
    Except (EvalError K) KeystreamAddress := do
  let x ← KeyPart.counter.toInteger (← key.counters.x.eval env)
  let y ← KeyPart.counter.toInteger (← key.counters.y.eval env)
  let z ← KeyPart.counter.toInteger (← key.counters.z.eval env)
  let t ← KeyPart.timeStep.toNatural (← key.timeStep.eval env)
  let s ← KeyPart.seed.toNatural (← key.seed.eval env)
  return .ofKey ⟨x, y, z⟩ key.channel t s

/-- A key draws at its address. -/
theorem RandomKey.eval_eq (env : Env K) (key : RandomKey (Expr K)) :
    key.eval env = key.address env >>= fun a => .ok a.draw := by
  obtain ⟨⟨x, y, z⟩, channel, timeStep, seed⟩ := key
  simp only [RandomKey.eval, Expr.eval, address, bind_assoc, pure_bind]
  rfl

theorem eval_foldedDraw_eq (env : Env K) (channel : ℕ) :
    (foldedDraw channel).eval env = (foldedKey channel).address env >>= fun a => .ok a.draw :=
  RandomKey.eval_eq env (foldedKey channel)

/-- A key whose parts are usable has the address that they say. -/
theorem address_foldedKey_of_key {i : Cell} {t s : ℕ}
    (hcounters : ∀ axis, ∃ v, (modulo (counter axis) (Parameter.extent axis).expr).eval env = .ok v ∧
      KeyPart.counter.toInteger v = .ok (i.get axis))
    (htime : ∃ v, env.bindings.get? Parameter.timeStep.name = some v ∧
      KeyPart.timeStep.toNatural v = .ok t)
    (hseed : ∃ v, env.bindings.get? Parameter.seed.name = some v ∧
      KeyPart.seed.toNatural v = .ok s) (channel : ℕ) :
    (foldedKey channel).address env = .ok (.ofKey i channel t s) := by
  obtain ⟨x, hx, hi⟩ := hcounters .x
  obtain ⟨y, hy, hj⟩ := hcounters .y
  obtain ⟨z, hz, hk⟩ := hcounters .z
  obtain ⟨u, hu, ht⟩ := htime
  obtain ⟨w, hw, hs⟩ := hseed
  simp only [RandomKey.address, foldedKey, PerAxis.ofFn]
  rw [hx, hy, hz, eval_parameter hu, eval_parameter hw]
  simp only [bind, Except.bind, hi, hj, hk, ht, hs]
  rfl

/-- A key whose parts are usable draws a number. -/
theorem eval_foldedDraw_of_key {i : Cell} {t s : ℕ}
    (hcounters : ∀ axis, ∃ v, (modulo (counter axis) (Parameter.extent axis).expr).eval env = .ok v ∧
      KeyPart.counter.toInteger v = .ok (i.get axis))
    (htime : ∃ v, env.bindings.get? Parameter.timeStep.name = some v ∧
      KeyPart.timeStep.toNatural v = .ok t)
    (hseed : ∃ v, env.bindings.get? Parameter.seed.name = some v ∧
      KeyPart.seed.toNatural v = .ok s) (channel : ℕ) :
    (foldedDraw channel).eval env = .ok (unitDraw i channel t s) := by
  rw [eval_foldedDraw_eq, address_foldedKey_of_key hcounters htime hseed]
  rfl

/-- An address depends on the bindings only through the parameters. -/
theorem address_foldedKey_congr {fields : FieldValues K} {b b' : Bindings K} {x : Cell}
    (h : ∀ p : Parameter, b.get? p.name = b'.get? p.name) (channel : ℕ) :
    (foldedKey channel).address ⟨fields, b, x⟩ = (foldedKey channel).address ⟨fields, b', x⟩ := by
  have hexpr (p : Parameter) : p.expr.eval ⟨fields, b, x⟩ = p.expr.eval ⟨fields, b', x⟩ := by
    simp only [Parameter.expr, Parameter.symbol, eval, h]
  simp only [RandomKey.address, foldedKey, PerAxis.ofFn, eval, hexpr]

/-- A draw depends on the bindings only through the parameters. -/
theorem eval_foldedDraw_congr {b : Bindings K}
    (h : ∀ p : Parameter, b.get? p.name = env.bindings.get? p.name) (channel : ℕ) :
    (foldedDraw channel).eval { env with bindings := b } = (foldedDraw channel).eval env := by
  rw [eval_foldedDraw_eq, eval_foldedDraw_eq, address_foldedKey_congr h]

theorem KeyPart.toNatural_ofInt [IntegerScalar K] (part : KeyPart) {n : ℕ} (hn : n ≤ exactBound) :
    part.toNatural (Scalar.ofInt n : K) = .ok n := by
  have hbound : (n : ℤ).natAbs ≤ exactBound := hn
  refine bind_eq_ok.2 ⟨n, ?_, if_neg (Int.not_lt.2 (Int.natCast_nonneg n))⟩
  rw [toInteger, if_pos (IntegerScalar.isInteger_ofInt hbound),
    IntegerScalar.toInteger_ofInt hbound]

/-! ### All draws -/

namespace Collection

/-- The draws are bound under their names, and all other names keep what they had. -/
theorem bindAll_foldedNoise {draw : ℕ → K} {channels : List ℕ}
    (h : ∀ k ∈ channels, (foldedDraw k).eval env = .ok (draw k)) :
    ∃ b, bindAll env (channels.map foldedNoise) = .ok { env with bindings := b } ∧
      (∀ k ∈ channels, b.get? (noiseName k) = some (draw k)) ∧
      ∀ name, (∀ k ∈ channels, name ≠ noiseName k) → b.get? name = env.bindings.get? name := by
  induction channels generalizing env with
  | nil => exact ⟨env.bindings, rfl, fun k hk => absurd hk List.not_mem_nil, fun _ _ => rfl⟩
  | cons k rest ih =>
      have hdraw := h k List.mem_cons_self
      have hparameters (p : Parameter) :
          (env.bindings.insert (noiseName k) (draw k)).get? p.name = env.bindings.get? p.name := by
        rw [Bindings.get?_insert, if_neg (noiseName_ne_parameter k p).symm]
      have hrest : ∀ i ∈ rest,
          (foldedDraw i).eval (env.bind (noiseName k) (draw k)) = .ok (draw i) := fun i hi =>
        (eval_foldedDraw_congr hparameters i).trans (h i (List.mem_cons_of_mem _ hi))
      obtain ⟨b, hb, hdraws, hothers⟩ := ih hrest
      refine ⟨b, bind_eq_ok.2 ⟨draw k, hdraw, hb⟩, fun i hi => ?_, fun name hname => ?_⟩
      · by_cases hmem : i ∈ rest
        · exact hdraws i hmem
        -- What is drawn first keeps its place, since the later names are others.
        · obtain rfl := (List.mem_cons.1 hi).resolve_right hmem
          rw [hothers (noiseName i) fun k hk hname => hmem ((noiseName_injective hname).symm ▸ hk)]
          exact Bindings.get?_insert_self _ _ _
      · rw [hothers name fun k hk => hname k (List.mem_cons_of_mem _ hk), Env.bind,
          Bindings.get?_insert, if_neg (hname k List.mem_cons_self)]

end Collection

end Electrokinetics
