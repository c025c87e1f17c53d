/-
**Doubles whose value needs no rounding.**

A double with its leading bit set is a mantissa of 53 bits and an exponent.  Its parts are read back
from its bits, and rounding any mantissa and exponent of the same value gives exactly these parts.
Very small doubles have a shorter mantissa at the least exponent, and rounding keeps these too.

Main definitions:

* `Double.Normal` — the mantissa and the exponent of a double with its leading bit set;
* `Double.Fits` — a mantissa and an exponent that need no rounding, be they normal or not;
* `Double.SameValue` — another mantissa and exponent with the same value.

Main results:

* `Double.unpack_pack_normal` — the parts are read back;
* `Double.round_eq`, `Double.roundWithAccuracy_eq` — rounding the same value;
* `Double.sameValue_iff`, `Double.SameValue.align`, `Double.SameValue.mod` — values at one exponent.
-/

import Electrokinetics.Scalar
import Mathlib

set_option relaxedAutoImplicit false
set_option autoImplicit false

namespace Electrokinetics

namespace Double

open Float.Model Float.Model.UnpackedFloat

/-- The mantissa and the exponent of a double that is neither zero nor very small. -/
structure Normal (M : ℕ) (E : ℤ) : Prop where
  le : 2 ^ 52 ≤ M
  lt : M < 2 ^ 53
  minimal : -1074 ≤ E
  maximal : E ≤ 971

theorem Normal.pos {M : ℕ} {E : ℤ} (h : Normal M E) : 0 < M :=
  lt_of_lt_of_le (Nat.two_pow_pos 52) h.le

theorem Normal.log2 {M : ℕ} {E : ℤ} (h : Normal M E) : M.log2 = 52 :=
  (Nat.log2_eq_iff h.pos.ne').2 ⟨h.le, h.lt⟩

theorem unpack_pack_zero (s : Sign) : (Float.Model.pack (.zero s)).unpack = .zero s :=
  unpack_packedZero

theorem toNat_one_append (m : BitVec 52) : (1#1 ++ m).toNat = 2 ^ 52 + m.toNat := by
  rw [BitVec.toNat_append, ← Nat.shiftLeft_add_eq_or_of_lt m.isLt]
  simp [Nat.shiftLeft_eq]

theorem exponentBias_eq : (Format.binary64.exponentBias : ℤ) = 1023 := rfl

theorem ofNat_ne_ofNat {b c : ℕ} (hb : b < 2 ^ 11) (hc : c < 2 ^ 11) (h : b ≠ c) :
    BitVec.ofNat 11 b ≠ BitVec.ofNat 11 c := by
  intro heq
  have hnat := congrArg BitVec.toNat heq
  rw [BitVec.toNat_ofNat, BitVec.toNat_ofNat, Nat.mod_eq_of_lt hb, Nat.mod_eq_of_lt hc] at hnat
  exact h hnat

section Bits

variable (s : Sign) {M : ℕ} {E : ℤ} (h : Normal M E) {b : ℕ} (hb : (b : ℤ) = E + 1075)

include hb

/-- The stored exponent counts from the least one, and the leading bit of the mantissa is left
out. -/
theorem pack_normal :
    UnpackedFloat.pack Format.binary64 (.finite s M E h.pos) =
      packComponents Format.binary64 s (BitVec.ofNat 11 b) (BitVec.ofNat 52 M) := by
  have hmin := h.minimal
  have hmax := h.maximal
  have hbias : (E + (Format.binary64.exponentBias : ℤ) + (52 : ℕ)).toNat = b := by
    rw [exponentBias_eq]
    push_cast
    omega
  simp only [UnpackedFloat.pack]
  rw [hbias, if_neg (by omega), if_pos (by rw [h.log2]; rfl)]

theorem unpack_packComponents :
    UnpackedFloat.unpack Format.binary64
      (packComponents Format.binary64 s (BitVec.ofNat 11 b) (BitVec.ofNat 52 M)) =
        .finite s M E h.pos := by
  have hle := h.le
  have hlt := h.lt
  have hmin := h.minimal
  have hmax := h.maximal
  -- The stored exponent is neither the one of infinities nor the one of zeros.
  have hones : BitVec.ofNat 11 b ≠ -1#11 := ofNat_ne_ofNat (c := 2047) (by omega) (by omega) (by omega)
  have hzeros : BitVec.ofNat 11 b ≠ 0#11 := ofNat_ne_ofNat (by omega) (by omega) (by omega)
  unfold UnpackedFloat.unpack
  simp only [unpackMantissa_packComponents, unpackExponent_packComponents]
  rw [if_neg hones, if_neg hzeros, unpackSign_packComponents, Sign.ofBitVec_toBitVec]
  congr 1
  · rw [toNat_one_append, BitVec.toNat_ofNat]
    omega
  · rw [BitVec.toNat_ofNat, Nat.mod_eq_of_lt (by omega), exponentBias_eq]
    push_cast
    omega

end Bits

theorem unpack_pack_normal (s : Sign) {M : ℕ} {E : ℤ} (h : Normal M E) :
    (Float.Model.pack (.finite s M E h.pos)).unpack = .finite s M E h.pos := by
  have hmin := h.minimal
  obtain ⟨b, hb⟩ : ∃ b : ℕ, (b : ℤ) = E + 1075 := ⟨(E + 1075).toNat, by omega⟩
  change UnpackedFloat.unpack Format.binary64 (UnpackedFloat.pack Format.binary64 _) = _
  rw [pack_normal s h hb, unpack_packComponents s h hb]

/-! ### Rounding a value that needs no rounding -/

/-- Shifting a mantissa back over its zeros loses nothing. -/
theorem shiftRight_exact (M k : ℕ) :
    ExtendedMantissa.ofMantissaAndAccuracy (M * 2 ^ k) .exact >>> k = ⟨M, false, false⟩ := by
  change k.repeat ExtendedMantissa.shiftRightOne _ = _
  induction k generalizing M with
  | zero => simp [Nat.repeat, ExtendedMantissa.ofMantissaAndAccuracy]
  | succ k ih =>
      have hpow : M * 2 ^ (k + 1) = M * 2 * 2 ^ k := by rw [pow_succ]; ring
      rw [hpow, Nat.repeat, ih]
      simp [ExtendedMantissa.shiftRightOne]

/-- A mantissa with an exponent has the value of a normal double. -/
def SameValue (m : ℕ) (e : ℤ) (M : ℕ) (E : ℤ) : Prop :=
  ∃ k : ℕ, (m = M * 2 ^ k ∧ E = e + k) ∨ (M = m * 2 ^ k ∧ e = E + k)

theorem log2_mul_two_pow {n : ℕ} (h : 0 < n) (k : ℕ) : (n * 2 ^ k).log2 = n.log2 + k := by
  refine (Nat.log2_eq_iff (Nat.mul_pos h (Nat.two_pow_pos k)).ne').2 ⟨?_, ?_⟩
  · rw [Nat.pow_add]
    exact Nat.mul_le_mul_right _ (Nat.log2_self_le h.ne')
  · rw [Nat.add_right_comm, Nat.pow_add]
    exact Nat.mul_lt_mul_of_pos_right Nat.lt_log2_self (Nat.two_pow_pos k)

theorem targetExponent_eq (t : ℤ) : Format.binary64.targetExponent t = max (t - 53) (-1074) := rfl

/-- A mantissa with an exponent needs no rounding: the exponent is the one that rounding asks for. -/
structure Fits (M : ℕ) (E : ℤ) : Prop where
  pos : 0 < M
  target : Format.binary64.targetExponent (totalExponent M E) = E

theorem Normal.fits {M : ℕ} {E : ℤ} (h : Normal M E) : Fits M E := by
  have hmin := h.minimal
  refine ⟨h.pos, ?_⟩
  rw [targetExponent_eq, totalExponent, h.log2]
  omega

/-- A mantissa that is too short fits at the least exponent. -/
theorem fits_of_small {M : ℕ} (h0 : 0 < M) (h : M < 2 ^ 52) : Fits M (-1074) := by
  have hlog : M.log2 < 52 := (Nat.log2_lt h0.ne').2 h
  refine ⟨h0, ?_⟩
  rw [targetExponent_eq, totalExponent]
  omega

section Fits

variable {M : ℕ} {E : ℤ} (h : Fits M E) (k : ℕ)

include h

theorem Fits.target_shifted :
    Format.binary64.targetExponent (totalExponent (M * 2 ^ k) (E - k)) = E := by
  have htotal : totalExponent (M * 2 ^ k) (E - k) = totalExponent M E := by
    rw [totalExponent, totalExponent, log2_mul_two_pow h.pos]
    push_cast
    omega
  rw [htotal, h.target]

theorem Fits.shiftToTargetExponent_eq :
    shiftToTargetExponent Format.binary64 (M * 2 ^ k) (E - k) .exact =
      (⟨M, false, false⟩, E) := by
  have hk : (E - (E - k)).toNat = k := by omega
  simp only [shiftToTargetExponent, shiftToExponent]
  rw [h.target_shifted, hk, shiftRight_exact, sub_add_cancel]

theorem Fits.roundWithAccuracy_eq (s : Sign) :
    roundWithAccuracy Format.binary64 s (M * 2 ^ k) (E - k) .exact = .finite s M E h.pos := by
  have hagain : shiftToTargetExponent Format.binary64 M E .exact = (⟨M, false, false⟩, E) := by
    simpa using h.shiftToTargetExponent_eq 0
  have hround : (⟨M, false, false⟩ : ExtendedMantissa).roundedMantissa = M := rfl
  unfold roundWithAccuracy
  rw [h.shiftToTargetExponent_eq]
  simp only [hround, hagain]
  rw [dif_neg h.pos.ne']

end Fits

theorem Normal.targetExponent_shifted {M : ℕ} {E : ℤ} (h : Normal M E) (k : ℕ) :
    Format.binary64.targetExponent (totalExponent (M * 2 ^ k) (E - k)) = E :=
  h.fits.target_shifted k

theorem shiftToTargetExponent_eq {M : ℕ} {E : ℤ} (h : Normal M E) (k : ℕ) :
    shiftToTargetExponent Format.binary64 (M * 2 ^ k) (E - k) .exact =
      (⟨M, false, false⟩, E) :=
  h.fits.shiftToTargetExponent_eq k

theorem roundWithAccuracy_eq (s : Sign) {M : ℕ} {E : ℤ} (h : Normal M E) (k : ℕ) :
    roundWithAccuracy Format.binary64 s (M * 2 ^ k) (E - k) .exact = .finite s M E h.pos :=
  h.fits.roundWithAccuracy_eq k s

theorem round_eq (s : Sign) {m M : ℕ} {e E : ℤ} (h : Normal M E) (hv : SameValue m e M E) :
    UnpackedFloat.round Format.binary64 s m e = .finite s M E h.pos := by
  obtain ⟨k, ⟨rfl, rfl⟩ | ⟨rfl, rfl⟩⟩ := hv
  -- The mantissa has zeros at its end, and rounding shifts them out.
  · have he : e = e + (k : ℤ) - k := (add_sub_cancel_right e _).symm
    have htarget := h.targetExponent_shifted k
    have hzero : (e - (e + k)).toNat = 0 := by omega
    rw [← he] at htarget
    simp only [UnpackedFloat.round, decreaseExponent]
    rw [htarget, hzero]
    simpa [← he] using roundWithAccuracy_eq s h k
  -- The mantissa is too short, and zeros are put behind it before it is rounded.
  · have htotal : totalExponent m (E + k) = totalExponent (m * 2 ^ k) E := by
      have hm : 0 < m := Nat.pos_of_mul_pos_right h.pos
      rw [totalExponent, totalExponent, log2_mul_two_pow hm]
      push_cast
      omega
    have htarget := h.targetExponent_shifted 0
    have hk : (E + k - E).toNat = k := by omega
    simp only [pow_zero, mul_one, Nat.cast_zero, sub_zero] at htarget
    simp only [UnpackedFloat.round, decreaseExponent]
    rw [htotal, htarget, hk, Nat.shiftLeft_eq, add_sub_cancel_right]
    simpa using roundWithAccuracy_eq s h 0

theorem round_zero (s : Sign) (e : ℤ) : UnpackedFloat.round Format.binary64 s 0 e = .zero s := by
  have hshift (e : ℤ) : ∃ e', shiftToTargetExponent Format.binary64 0 e .exact =
      (⟨0, false, false⟩, e') := by
    refine ⟨_, Prod.ext ?_ rfl⟩
    simpa [shiftToTargetExponent, shiftToExponent] using shiftRight_exact 0
      (Format.binary64.targetExponent (totalExponent 0 e) - e).toNat
  have hround : (⟨0, false, false⟩ : ExtendedMantissa).roundedMantissa = 0 := rfl
  simp only [UnpackedFloat.round, decreaseExponent, Nat.zero_shiftLeft]
  unfold roundWithAccuracy
  obtain ⟨e₁, h₁⟩ := hshift (e - (e - Format.binary64.targetExponent (totalExponent 0 e)).toNat)
  obtain ⟨e₂, h₂⟩ := hshift e₁
  rw [h₁]
  simp only [hround, h₂]
  rw [dif_pos trivial]

/-! ### Equal values -/

/-- A mantissa with an exponent stands for a rational number. -/
theorem sameValue_iff {m M : ℕ} {e E : ℤ} :
    SameValue m e M E ↔ (m : ℚ) * 2 ^ e = M * 2 ^ E := by
  have htwo : (2 : ℚ) ≠ 0 := two_ne_zero
  constructor
  · rintro ⟨k, ⟨rfl, rfl⟩ | ⟨rfl, rfl⟩⟩
    · push_cast
      rw [zpow_add₀ htwo, zpow_natCast]
      ring
    · push_cast
      rw [zpow_add₀ htwo, zpow_natCast]
      ring
  · intro h
    rcases Int.le_total e E with hle | hle
    · obtain ⟨k, rfl⟩ := Int.le.dest hle
      refine ⟨k, Or.inl ⟨?_, rfl⟩⟩
      rw [zpow_add₀ htwo, zpow_natCast, mul_comm ((2 : ℚ) ^ e), ← mul_assoc] at h
      exact_mod_cast mul_right_cancel₀ (zpow_ne_zero e htwo) h
    · obtain ⟨k, rfl⟩ := Int.le.dest hle
      refine ⟨k, Or.inr ⟨?_, rfl⟩⟩
      rw [zpow_add₀ htwo, zpow_natCast, mul_comm ((2 : ℚ) ^ E), ← mul_assoc] at h
      exact_mod_cast (mul_right_cancel₀ (zpow_ne_zero E htwo) h).symm

theorem SameValue.trans {l m n : ℕ} {c d e : ℤ} (h : SameValue l c m d) (h' : SameValue m d n e) :
    SameValue l c n e :=
  sameValue_iff.2 ((sameValue_iff.1 h).trans (sameValue_iff.1 h'))

theorem SameValue.symm {m n : ℕ} {d e : ℤ} (h : SameValue m d n e) : SameValue n e m d :=
  sameValue_iff.2 (sameValue_iff.1 h).symm

/-- Zeros behind a mantissa. -/
theorem sameValue_shift (m : ℕ) (e : ℤ) (k : ℕ) : SameValue m e (m * 2 ^ k) (e - k) :=
  ⟨k, Or.inr ⟨rfl, by omega⟩⟩

/-- The same value at a smaller exponent. -/
theorem SameValue.align {n M : ℕ} {E c : ℤ} (h : SameValue n 0 M E) (hc : c ≤ E) :
    SameValue n 0 (M * 2 ^ (E - c).toNat) c := by
  have hshift := h.trans (sameValue_shift M E (E - c).toNat)
  rwa [Int.toNat_of_nonneg (by omega), sub_sub_cancel] at hshift

/-- At a common exponent the remainder of two integers is that of the mantissas. -/
theorem SameValue.mod {n m M N : ℕ} {c : ℤ} (hn : SameValue n 0 M c) (hm : SameValue m 0 N c) :
    SameValue (n % m) 0 (M % N) c := by
  rcases Int.le_total 0 c with hc | hc
  · obtain ⟨k, rfl⟩ := Int.eq_ofNat_of_zero_le hc
    have heq {n M : ℕ} (h : SameValue n 0 M k) : n = M * 2 ^ k := by
      have hrat := sameValue_iff.1 h
      rw [zpow_zero, mul_one, zpow_natCast] at hrat
      exact_mod_cast hrat
    refine ⟨k, Or.inl ⟨?_, by omega⟩⟩
    rw [heq hn, heq hm, Nat.mul_mod_mul_right]
  · obtain ⟨k, hk⟩ := Int.eq_ofNat_of_zero_le (neg_nonneg.2 hc)
    obtain rfl : c = 0 - (k : ℤ) := by omega
    have heq {n M : ℕ} (h : SameValue n 0 M (0 - k)) : M = n * 2 ^ k := by
      have hrat := sameValue_iff.1 ((sameValue_shift n 0 k).symm.trans h)
      exact_mod_cast (mul_right_cancel₀ (zpow_ne_zero _ two_ne_zero) hrat).symm
    refine ⟨k, Or.inr ⟨?_, by omega⟩⟩
    rw [heq hn, heq hm, Nat.mul_mod_mul_right]

theorem SameValue.pos {n M : ℕ} {E : ℤ} (h : SameValue n 0 M E) (hM : 0 < M) : 0 < n := by
  obtain ⟨k, ⟨rfl, -⟩ | ⟨rfl, -⟩⟩ := h
  · exact Nat.mul_pos hM (Nat.two_pow_pos k)
  · exact Nat.pos_of_mul_pos_right hM

/-- A mantissa of at most 53 bits is that of a double, unless the value is very small or large. -/
theorem exists_normal {m : ℕ} {e : ℤ} (h0 : 0 < m) (hm : m < 2 ^ 53) (hmin : -1022 ≤ e)
    (hmax : e ≤ 971) : ∃ M E, Normal M E ∧ SameValue m e M E := by
  have hlog : m.log2 < 53 := (Nat.log2_lt h0.ne').2 hm
  obtain ⟨k, hk⟩ : ∃ k, m.log2 + k = 52 := ⟨52 - m.log2, by omega⟩
  refine ⟨m * 2 ^ k, e - k, ⟨?_, ?_, by omega, by omega⟩, sameValue_shift m e k⟩
  · rw [← hk, pow_add]
    exact Nat.mul_le_mul_right _ (Nat.log2_self_le h0.ne')
  · have h53 : m.log2 + 1 + k = 53 := by omega
    rw [← h53, pow_add]
    exact Nat.mul_lt_mul_of_pos_right Nat.lt_log2_self (Nat.two_pow_pos k)

end Double

end Electrokinetics
