/-
**What a random key stands for.**

The parts of a key are doubles, but the keystream is addressed by integers of 64 bits.  A part is usable
if its value is an integer, and for time step and seed if it is not negative.  Then it is cast to a
signed integer, and the cast saturates: an integer beyond the range goes to its nearer end without a
fault.  So a key whose parts are within the range of signed integers draws the number of just these
integers, and no other integers are ever drawn with.  Counters beyond either end, and time steps and
seeds from `2 ^ 63` on, share the number of the end, although these time steps and seeds would still be
unsigned integers of 64 bits.

Main definitions:

* `Binary64.clamped` — the nearest 64-bit signed integer to an integer;
* `Expr.StandsFor`, `RandomKey.StandsFor` — the integers that an expression and a key stand for.

Main results:

* `Binary64.isInteger_iff`, `Binary64.toInteger_of_value?` — the check and the cast of a double;
* `KeyPart.toInteger_eq_ok_iff`, `KeyPart.toNatural_eq_ok_iff` — the check and the cast of a part;
* `RandomKey.eval_eq_ok_iff` — which numbers a key can draw;
* `RandomKey.draws_with_clamped_integers` — how far a key is taken for what it stands for;
* `RandomKey.eval_saturates` — a seed that is taken for another one.
-/

import Electrokinetics.Proofs.Expr.Lookup
import Electrokinetics.Proofs.Noise.Draws
import Electrokinetics.Proofs.Scalar.Quotient

set_option relaxedAutoImplicit false
set_option autoImplicit false

namespace Electrokinetics

/-! ### Doubles that are integers -/

namespace Binary64

variable {negative : Bool} {m : ℕ} {n : ℤ}

/-- The nearest 64-bit signed integer to an integer. -/
def clamped (n : ℤ) : ℤ := max leastInteger (min greatestInteger n)

/-- An integer is a 64-bit signed integer. -/
def InRange (n : ℤ) : Prop := leastInteger ≤ n ∧ n ≤ greatestInteger

instance (n : ℤ) : Decidable (InRange n) := inferInstanceAs (Decidable (_ ∧ _))

theorem clamped_of_inRange (h : InRange n) : clamped n = n := by
  rw [clamped, min_eq_right h.2, max_eq_right h.1]

theorem clamped_neg_iff : clamped n < 0 ↔ n < 0 := by
  have hleast : leastInteger < 0 := by decide
  have hgreatest : 0 < greatestInteger := by decide
  rw [clamped]
  omega

theorem signed_mul (m k : ℕ) : signed negative (m * k) = signed negative m * k := by
  cases negative
  · exact Nat.cast_mul m k
  · simp [signed]

theorem natAbs_signed (negative : Bool) (m : ℕ) : (signed negative m).natAbs = m := by
  cases negative <;> simp [signed]

/-- A signed magnitude is a multiple of a natural number if the magnitude is one. -/
theorem signed_eq_mul_iff {k : ℕ} (hk : 0 < k) :
    signed negative m = n * k ↔ m % k = 0 ∧ signed negative (m / k) = n := by
  have hk' : (k : ℤ) ≠ 0 := Int.natCast_ne_zero.2 hk.ne'
  constructor
  · intro h
    have hm : m = n.natAbs * k := by
      rw [← natAbs_signed negative m, h, Int.natAbs_mul, Int.natAbs_natCast]
    refine ⟨hm ▸ Nat.mul_mod_left _ k, ?_⟩
    rw [hm, Nat.mul_div_cancel _ hk]
    rw [hm, signed_mul] at h
    exact Int.eq_of_mul_eq_mul_right hk' h
  · rintro ⟨hmod, rfl⟩
    rw [← signed_mul, Nat.div_mul_cancel (Nat.dvd_of_mod_eq_zero hmod)]

/-- The value of a finite double is an integer if it passes the check, and then it is its integral
part. -/
theorem value?_finite_eq_iff {exponent : ℤ} :
    (finite negative m exponent).value? = some (n : ℚ) ↔
      (finite negative m exponent).isInteger = true ∧
        signed negative (if 0 ≤ exponent then m * Nat.pow 2 exponent.toNat
          else m / Nat.pow 2 (-exponent).toNat) = n := by
  rw [value?, Option.some_inj, isInteger, Bool.or_eq_true, decide_eq_true_eq, beq_iff_eq]
  by_cases h : 0 ≤ exponent
  · obtain ⟨k, rfl⟩ := Int.eq_ofNat_of_zero_le h
    simp only [Nat.pow_eq]
    rw [if_pos h, zpow_natCast, Int.toNat_natCast, signed_mul]
    constructor
    · intro hvalue
      exact ⟨.inl h, by exact_mod_cast hvalue⟩
    · rintro ⟨-, rfl⟩
      push_cast
      rfl
  · obtain ⟨k, rfl⟩ : ∃ k : ℕ, exponent = -k := ⟨exponent.natAbs, by omega⟩
    have hpow : (2 ^ k : ℚ) ≠ 0 := pow_ne_zero k two_ne_zero
    simp only [Nat.pow_eq]
    rw [if_neg h, or_iff_right h, neg_neg, Int.toNat_natCast,
      ← signed_eq_mul_iff (Nat.two_pow_pos k), zpow_neg, zpow_natCast, ← div_eq_mul_inv,
      div_eq_iff hpow]
    push_cast
    exact ⟨fun hvalue => by exact_mod_cast hvalue, fun hvalue => by exact_mod_cast hvalue⟩

theorem isInteger_iff {a : Binary64} : a.isInteger = true ↔ ∃ n : ℤ, a.value? = some (n : ℚ) := by
  cases a with
  | finite negative m exponent =>
      constructor
      · exact fun h => ⟨_, value?_finite_eq_iff.2 ⟨h, rfl⟩⟩
      · rintro ⟨n, h⟩
        exact (value?_finite_eq_iff.1 h).1
  | infinite negative => exact iff_of_false nofun fun ⟨_, h⟩ => nomatch h
  | notANumber => exact iff_of_false nofun fun ⟨_, h⟩ => nomatch h

theorem toInteger_of_value? {a : Binary64} (h : a.value? = some (n : ℚ)) :
    a.toInteger = clamped n := by
  cases a with
  | finite negative m exponent =>
      obtain ⟨-, rfl⟩ := value?_finite_eq_iff.1 h
      rfl
  | infinite negative => cases h
  | notANumber => cases h

end Binary64

open Binary64

/-! ### Parts of a key -/

section Parts

variable {v : Float} {n : ℤ} (part : KeyPart)

theorem KeyPart.toInteger_of_value? (h : (ofFloat v).value? = some (n : ℚ)) :
    part.toInteger v = .ok (clamped n) := by
  have hinteger : Scalar.isInteger v = true := isInteger_iff.2 ⟨n, h⟩
  rw [toInteger, if_pos hinteger]
  exact congrArg Except.ok (Binary64.toInteger_of_value? h)

theorem KeyPart.toInteger_eq_ok_iff {i : ℤ} :
    part.toInteger v = .ok i ↔ ∃ n : ℤ, (ofFloat v).value? = some (n : ℚ) ∧ i = clamped n := by
  constructor
  · intro h
    by_cases hinteger : Scalar.isInteger v = true
    · obtain ⟨n, hn⟩ := isInteger_iff.1 hinteger
      rw [part.toInteger_of_value? hn] at h
      exact ⟨n, hn, (Except.ok.inj h).symm⟩
    · rw [toInteger, if_neg hinteger] at h
      cases h
  · rintro ⟨n, hn, rfl⟩
    exact part.toInteger_of_value? hn

theorem KeyPart.toNatural_eq_ok_iff {i : ℕ} :
    part.toNatural v = .ok i ↔
      ∃ n : ℤ, (ofFloat v).value? = some (n : ℚ) ∧ 0 ≤ n ∧ i = (clamped n).toNat := by
  constructor
  · intro h
    obtain ⟨j, hj, h⟩ := bind_eq_ok.1 h
    obtain ⟨n, hn, rfl⟩ := part.toInteger_eq_ok_iff.1 hj
    by_cases hneg : clamped n < 0
    · rw [if_pos hneg] at h
      cases h
    · rw [if_neg hneg] at h
      exact ⟨n, hn, not_lt.1 (mt clamped_neg_iff.2 hneg), (Except.ok.inj h).symm⟩
  · rintro ⟨n, hn, hnonneg, rfl⟩
    have hneg : ¬ clamped n < 0 := mt clamped_neg_iff.1 (not_lt.2 hnonneg)
    exact bind_eq_ok.2 ⟨_, part.toInteger_of_value? hn, if_neg hneg⟩

end Parts

/-! ### Keys -/

/-- The value of an expression is an integer. -/
def Expr.StandsFor (env : Env Float) (e : Expr Float) (n : ℤ) : Prop :=
  ∃ v, e.eval env = .ok v ∧ (ofFloat v).value? = some (n : ℚ)

/-- The values of the parts of a key are integers. -/
structure RandomKey.StandsFor (env : Env Float) (key : RandomKey (Expr Float)) (i : Cell)
    (t s : ℤ) : Prop where
  counter : ∀ axis, (key.counters.get axis).StandsFor env (i.get axis)
  timeStep : key.timeStep.StandsFor env t
  seed : key.seed.StandsFor env s

section Keys

variable {env : Env Float}

theorem Expr.eval_toInteger_eq_ok_iff {e : Expr Float} (part : KeyPart) {i : ℤ} :
    (e.eval env >>= part.toInteger) = .ok i ↔ ∃ n, e.StandsFor env n ∧ i = clamped n := by
  constructor
  · intro h
    obtain ⟨v, hv, h⟩ := bind_eq_ok.1 h
    obtain ⟨n, hn, rfl⟩ := part.toInteger_eq_ok_iff.1 h
    exact ⟨n, ⟨v, hv, hn⟩, rfl⟩
  · rintro ⟨n, ⟨v, hv, hn⟩, rfl⟩
    exact bind_eq_ok.2 ⟨v, hv, part.toInteger_of_value? hn⟩

theorem Expr.eval_toNatural_eq_ok_iff {e : Expr Float} (part : KeyPart) {i : ℕ} :
    (e.eval env >>= part.toNatural) = .ok i ↔
      ∃ n, e.StandsFor env n ∧ 0 ≤ n ∧ i = (clamped n).toNat := by
  constructor
  · intro h
    obtain ⟨v, hv, h⟩ := bind_eq_ok.1 h
    obtain ⟨n, hn, hnonneg, rfl⟩ := part.toNatural_eq_ok_iff.1 h
    exact ⟨n, ⟨v, hv, hn⟩, hnonneg, rfl⟩
  · rintro ⟨n, ⟨v, hv, hn⟩, hnonneg, rfl⟩
    exact bind_eq_ok.2 ⟨v, hv, part.toNatural_eq_ok_iff.2 ⟨n, hn, hnonneg, rfl⟩⟩

variable {key : RandomKey (Expr Float)}

theorem RandomKey.address_eq (env : Env Float) (key : RandomKey (Expr Float)) :
    key.address env = do
      let x ← key.counters.x.eval env >>= KeyPart.counter.toInteger
      let y ← key.counters.y.eval env >>= KeyPart.counter.toInteger
      let z ← key.counters.z.eval env >>= KeyPart.counter.toInteger
      let t ← key.timeStep.eval env >>= KeyPart.timeStep.toNatural
      let s ← key.seed.eval env >>= KeyPart.seed.toNatural
      return .ofKey ⟨x, y, z⟩ key.channel t s := by
  simp only [address, bind_assoc]

/-- A key reads the keystream where the nearest signed integers to its parts say. -/
theorem RandomKey.address_eq_ok_iff {a : KeystreamAddress} :
    key.address env = .ok a ↔ ∃ i t s, key.StandsFor env i t s ∧ 0 ≤ t ∧ 0 ≤ s ∧
      a = .ofKey (i.map clamped) key.channel (clamped t).toNat (clamped s).toNat := by
  rw [address_eq]
  constructor
  · intro h
    obtain ⟨x, hx, h⟩ := bind_eq_ok.1 h
    obtain ⟨y, hy, h⟩ := bind_eq_ok.1 h
    obtain ⟨z, hz, h⟩ := bind_eq_ok.1 h
    obtain ⟨t, ht, h⟩ := bind_eq_ok.1 h
    obtain ⟨s, hs, h⟩ := bind_eq_ok.1 h
    obtain ⟨x, hx', rfl⟩ := (Expr.eval_toInteger_eq_ok_iff _).1 hx
    obtain ⟨y, hy', rfl⟩ := (Expr.eval_toInteger_eq_ok_iff _).1 hy
    obtain ⟨z, hz', rfl⟩ := (Expr.eval_toInteger_eq_ok_iff _).1 hz
    obtain ⟨t, ht', htime, rfl⟩ := (Expr.eval_toNatural_eq_ok_iff _).1 ht
    obtain ⟨s, hs', hseed, rfl⟩ := (Expr.eval_toNatural_eq_ok_iff _).1 hs
    cases h
    refine ⟨⟨x, y, z⟩, t, s, ⟨fun axis => ?_, ht', hs'⟩, htime, hseed, rfl⟩
    cases axis
    · exact hx'
    · exact hy'
    · exact hz'
  · rintro ⟨i, t, s, ⟨hcounter, ht, hs⟩, htime, hseed, rfl⟩
    have hread (axis : Axis) := (Expr.eval_toInteger_eq_ok_iff KeyPart.counter).2
      ⟨_, hcounter axis, rfl⟩
    refine bind_eq_ok.2 ⟨_, hread .x, bind_eq_ok.2 ⟨_, hread .y, bind_eq_ok.2 ⟨_, hread .z, ?_⟩⟩⟩
    refine bind_eq_ok.2 ⟨_, (Expr.eval_toNatural_eq_ok_iff _).2 ⟨t, ht, htime, rfl⟩, ?_⟩
    exact bind_eq_ok.2 ⟨_, (Expr.eval_toNatural_eq_ok_iff _).2 ⟨s, hs, hseed, rfl⟩, rfl⟩

/-- A key draws the number of the nearest signed integers to its parts, and no other number. -/
theorem RandomKey.eval_eq_ok_iff {r : Float} :
    key.eval env = .ok r ↔ ∃ i t s, key.StandsFor env i t s ∧ 0 ≤ t ∧ 0 ≤ s ∧
      r = unitDraw (i.map clamped) key.channel (clamped t).toNat (clamped s).toNat := by
  rw [eval_eq, bind_eq_ok]
  constructor
  · rintro ⟨a, ha, hr⟩
    obtain ⟨i, t, s, hkey, ht, hs, rfl⟩ := address_eq_ok_iff.1 ha
    exact ⟨i, t, s, hkey, ht, hs, (Except.ok.inj hr).symm⟩
  · rintro ⟨i, t, s, hkey, ht, hs, rfl⟩
    exact ⟨_, address_eq_ok_iff.2 ⟨i, t, s, hkey, ht, hs, rfl⟩, rfl⟩

/-- A key whose parts have values fails only because a part is not usable. -/
theorem RandomKey.failsOnly_eval {Q : EvalError Float → Prop}
    (hQ : ∀ part fault, Q (.invalidRandomKey part fault))
    (hparts : ∀ e ∈ key.exprs, ∃ v, e.eval env = .ok v) : FailsOnly Q (key.eval env) := by
  have hpart : ∀ e ∈ key.exprs, FailsOnly Q (e.eval env) := fun e he => by
    obtain ⟨v, hv⟩ := hparts e he
    rw [hv]
    exact .ok v
  have hinteger (part : KeyPart) (e : Expr Float) (he : e ∈ key.exprs) :
      FailsOnly Q (e.eval env >>= part.toInteger) :=
    (hpart e he).bind (Expr.failsOnly_toInteger hQ part)
  have hnatural (part : KeyPart) (e : Expr Float) (he : e ∈ key.exprs) :
      FailsOnly Q (e.eval env >>= part.toNatural) :=
    (hpart e he).bind (Expr.failsOnly_toNatural hQ part)
  rw [eval_eq, address_eq]
  refine FailsOnly.bind ?_ fun a => .ok _
  refine (hinteger _ _ (by simp [exprs, PerAxis.toList])).bind fun x => ?_
  refine (hinteger _ _ (by simp [exprs, PerAxis.toList])).bind fun y => ?_
  refine (hinteger _ _ (by simp [exprs, PerAxis.toList])).bind fun z => ?_
  refine (hnatural _ _ (by simp [exprs])).bind fun t => ?_
  exact (hnatural _ _ (by simp [exprs])).bind fun s => .ok _

/-- **Keys and what they stand for**: a key draws if and only if all its parts have integers as values,
time step and seed none below zero, and what it draws is the number of the nearest signed integers.
Parts within the range of these are not altered.  If all parts have values and yet nothing is drawn,
the fault is a part that is not usable. -/
theorem RandomKey.draws_with_clamped_integers (env : Env Float) (key : RandomKey (Expr Float)) :
    (∀ r, key.eval env = .ok r ↔ ∃ i t s, key.StandsFor env i t s ∧ 0 ≤ t ∧ 0 ≤ s ∧
        r = unitDraw (i.map clamped) key.channel (clamped t).toNat (clamped s).toNat) ∧
      (∀ i t s, key.StandsFor env i t s → (∀ axis, InRange (i.get axis)) →
        0 ≤ t → InRange t → 0 ≤ s → InRange s →
        key.eval env = .ok (unitDraw i key.channel t.toNat s.toNat)) ∧
      ((∀ e ∈ key.exprs, ∃ v, e.eval env = .ok v) →
        (∀ i t s, key.StandsFor env i t s → t < 0 ∨ s < 0) →
        ∃ part fault, key.eval env = .error (.invalidRandomKey part fault)) := by
  refine ⟨fun r => eval_eq_ok_iff, fun i t s hkey hi ht htime hs hseed => ?_,
    fun hparts hunusable => ?_⟩
  · have hcounters : i.map clamped = i := PerAxis.ext_get fun axis => by
      rw [PerAxis.get_map, clamped_of_inRange (hi axis)]
    refine eval_eq_ok_iff.2 ⟨i, t, s, hkey, ht, hs, ?_⟩
    rw [hcounters, clamped_of_inRange htime, clamped_of_inRange hseed]
  · cases heval : key.eval env with
    | ok r =>
        obtain ⟨i, t, s, hkey, ht, hs, -⟩ := eval_eq_ok_iff.1 heval
        rcases hunusable i t s hkey with hneg | hneg
        · exact absurd hneg (not_lt.2 ht)
        · exact absurd hneg (not_lt.2 hs)
    | error e =>
        obtain ⟨part, fault, rfl⟩ :=
          failsOnly_eval (Q := fun e => ∃ part fault, e = .invalidRandomKey part fault)
            (fun part fault => ⟨part, fault, rfl⟩) hparts e heval
        exact ⟨part, fault, rfl⟩

end Keys

/-! ### A seed that is taken for another one -/

/-- The key of the noise in the first direction. -/
def noiseKey : RandomKey (Expr Float) := .atCell 0 Parameter.timeStep.expr Parameter.seed.expr

/-- The cell before the origin, with a time step and a seed. -/
def noiseEnv (timeStep seed : ℤ) : Env Float :=
  ⟨fun _ _ _ => none, .ofList [(Parameter.timeStep.name, Scalar.ofInt timeStep),
    (Parameter.seed.name, Scalar.ofInt seed)], ⟨-1, 0, 0⟩⟩

theorem noiseKey_standsFor {t s : ℤ} (ht : (ofFloat (Scalar.ofInt t)).value? = some (t : ℚ))
    (hs : (ofFloat (Scalar.ofInt s)).value? = some (s : ℚ)) :
    noiseKey.StandsFor (noiseEnv t s) ⟨-1, 0, 0⟩ t s where
  counter axis := by
    cases axis
    · exact ⟨Scalar.ofInt (-1), rfl, by decide +kernel⟩
    · exact ⟨Scalar.ofInt 0, rfl, by decide +kernel⟩
    · exact ⟨Scalar.ofInt 0, rfl, by decide +kernel⟩
  timeStep := ⟨_, rfl, ht⟩
  seed := ⟨_, rfl, hs⟩

/-- Small integers draw the number that they should, and a negative time step draws none. -/
theorem RandomKey.draws_with_clamped_integers_small :
    noiseKey.eval (noiseEnv 3 7) = .ok (unitDraw ⟨-1, 0, 0⟩ 0 3 7) ∧
      ∃ part fault, noiseKey.eval (noiseEnv (-1) 7) = .error (.invalidRandomKey part fault) := by
  constructor
  · refine (draws_with_clamped_integers (noiseEnv 3 7) noiseKey).2.1 ⟨-1, 0, 0⟩ 3 7
      (noiseKey_standsFor (by decide +kernel) (by decide +kernel)) ?_ (by decide) (by decide)
      (by decide) (by decide)
    intro axis
    cases axis <;> decide
  · refine (draws_with_clamped_integers (noiseEnv (-1) 7) noiseKey).2.2 ?_ ?_
    · intro e he
      fin_cases he <;> exact ⟨_, rfl⟩
    · rintro i t s ⟨-, ⟨v, hv, hvalue⟩, -⟩
      cases hv
      have ht : (ofFloat (Scalar.ofInt (-1))).value? = some ((-1 : ℤ) : ℚ) := by decide +kernel
      have heq := Int.cast_injective (Option.some.inj (ht.symm.trans hvalue))
      exact .inl (by omega)

/-- The seed `2 ^ 63` is an unsigned integer of 64 bits, but it draws the number of the seed below
it. -/
theorem RandomKey.eval_saturates :
    noiseKey.StandsFor (noiseEnv 0 (2 ^ 63)) ⟨-1, 0, 0⟩ 0 (2 ^ 63) ∧
      noiseKey.eval (noiseEnv 0 (2 ^ 63)) = .ok (unitDraw ⟨-1, 0, 0⟩ 0 0 (2 ^ 63 - 1)) ∧
      (unitDraw ⟨-1, 0, 0⟩ 0 0 (2 ^ 63 - 1) : Float) ≠ unitDraw ⟨-1, 0, 0⟩ 0 0 (2 ^ 63) :=
  ⟨noiseKey_standsFor (by decide +kernel) (by decide +kernel), by decide +kernel, by decide +kernel⟩

end Electrokinetics
