/-
**Quotients that need no rounding.**

Dividing an integer by a power of two changes the exponent of a double and not its mantissa, as long as
the quotient is not very small.  So the double that a random number comes as is the fraction of two
integers that it was made from, and not merely near it.

Main definitions:

* `Binary64.value?` — the rational number that a double stands for.

Main results:

* `Double.div_eq` — the parts of the quotient by `2 ^ 53`;
* `Double.value?_div` — its value.
-/

import Electrokinetics.Proofs.Scalar.DoubleInteger

set_option relaxedAutoImplicit false
set_option autoImplicit false

namespace Electrokinetics

/-- The rational number that a double stands for. -/
def Binary64.value? : Binary64 → Option ℚ
  | .finite negative mantissa exponent => some (signed negative mantissa * 2 ^ exponent)
  | .infinite _ => none
  | .notANumber => none

namespace Double

open Float.Model Float.Model.UnpackedFloat

theorem value?_finite (s : Sign) {M : ℕ} {E : ℤ} (h : 0 < M) :
    (ofUnpacked (.finite s M E h)).value? = some ((s.apply M : ℚ) * 2 ^ E) := by
  rw [ofUnpacked, Binary64.value?, signed_isNegative]

theorem value?_zero (s : Sign) : (ofUnpacked (.zero s)).value? = some 0 := by
  cases s <;> simp [ofUnpacked, Binary64.value?, Binary64.signed]

/-- The last place of an integer is not small. -/
theorem Normal.le_exponent {n M : ℕ} {E : ℤ} (h : Normal M E) (hv : SameValue n 0 M E) : -52 ≤ E := by
  have hlt := h.lt
  obtain ⟨k, ⟨-, hk⟩ | ⟨rfl, hk⟩⟩ := hv
  · omega
  · have hn : 0 < n := Nat.pos_of_mul_pos_right h.pos
    have hpow : 2 ^ k < 2 ^ 53 := (Nat.le_mul_of_pos_left _ hn).trans_lt hlt
    have hk53 : k < 53 := (Nat.pow_lt_pow_iff_right (by decide)).1 hpow
    omega

/-- The quotient by `2 ^ 53` has the same mantissa. -/
theorem div_eq (s : Sign) {M : ℕ} {E : ℤ} (h : Normal M E) (hE : -52 ≤ E) :
    UnpackedFloat.div Format.binary64 (.finite s M E h.pos)
        (.finite .positive (2 ^ 52) 1 (Nat.two_pow_pos 52)) =
      .finite s M (E - 53) h.pos := by
  have hmax := h.maximal
  have hquotient : Normal M (E - 53) := ⟨h.le, h.lt, by omega, by omega⟩
  have hdivisor : (2 ^ 52 : ℕ).log2 = 52 := Nat.log2_two_pow
  -- The dividend is shifted so far that one bit more is left than a mantissa has.
  have htarget : min (E - 1) (Format.binary64.targetExponent
      (totalExponent M E - totalExponent (2 ^ 52) 1)) = E - 53 - (1 : ℕ) := by
    rw [targetExponent_eq, totalExponent, totalExponent, h.log2, hdivisor]
    omega
  have hshift : (E - 1 - (E - 53 - (1 : ℕ))).toNat = 53 := by omega
  have hmantissa : M <<< 53 = M * 2 ^ 1 * 2 ^ 52 := by
    rw [Nat.shiftLeft_eq]
    ring
  have hcore : divCore Format.binary64 M E (2 ^ 52) 1 = (M * 2 ^ 1, E - 53 - (1 : ℕ), .exact) := by
    simp only [divCore, htarget, hshift, hmantissa]
    rw [Nat.mul_div_cancel _ (Nat.two_pow_pos 52), Nat.mul_mod_left]
    rfl
  have hsign : s / .positive = s := by cases s <;> rfl
  have hround := roundWithAccuracy_eq s hquotient 1
  simp only [UnpackedFloat.div, hcore, hsign]
  exact hround

/-- The quotient of an integer by `2 ^ 53` is exact. -/
theorem value?_div {x : Float} {n : ℤ} (h : HasInteger x.toModel.unpack n) {m : ℕ}
    (hm : m = 2 ^ 53) : (Binary64.ofFloat (x / Float.ofNat m)).value? = some ((n : ℚ) / 2 ^ 53) := by
  subst hm
  have hmodel : (x / Float.ofNat (2 ^ 53)).toModel = Float.Model.pack
      (UnpackedFloat.div Format.binary64 x.toModel.unpack (Float.ofNat (2 ^ 53)).toModel.unpack) := rfl
  rw [ofFloat_eq, hmodel, unpack_two_pow]
  generalize x.toModel.unpack = u at h
  cases h with
  | zero s =>
      have hzero : UnpackedFloat.div Format.binary64 (.zero s)
          (.finite .positive (2 ^ 52) 1 (Nat.two_pow_pos 52)) = .zero (s / .positive) := rfl
      rw [hzero, unpack_pack_zero, value?_zero, Int.cast_zero, zero_div]
  | @finite s n M E hN hv =>
      have hE := hN.le_exponent hv
      have hmax := hN.maximal
      have hquotient : Normal M (E - 53) := ⟨hN.le, hN.lt, by omega, by omega⟩
      rw [div_eq s hN hE, unpack_pack_normal s hquotient, value?_finite, hv.apply_eq s,
        zpow_sub₀ (two_ne_zero (α := ℚ)), mul_div_assoc]
      rfl

end Double

end Electrokinetics
