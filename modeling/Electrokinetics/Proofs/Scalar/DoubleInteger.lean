/-
**Integers among the doubles.**

A double that was made from an integer of at most 53 bits has that integer as its value, whichever
of its representations is looked at.  Sums and remainders of such doubles by an extent are exact, so
the doubles have the laws of `IntegerScalar`, and what is proved from these laws holds of the kernels
as they run.

Main definitions:

* `Double.HasInteger` — an unpacked double has an integer value;
* `Double.ofUnpacked` — an unpacked double, taken apart.

Main results:

* `Double.hasInteger_ofInt` — the double of an integer;
* `Double.hasInteger_remainder` — the remainder by an extent;
* `instIntegerScalarFloat` — the instance.
-/

import Electrokinetics.Scalar.Double
import Electrokinetics.Proofs.Scalar.Integer
import Electrokinetics.Proofs.Scalar.Rounding

set_option relaxedAutoImplicit false
set_option autoImplicit false

namespace Electrokinetics

namespace Double

open Float.Model Float.Model.UnpackedFloat

/-! ### Doubles with an integer value -/

/-- An unpacked double has an integer value. -/
inductive HasInteger : UnpackedFloat → ℤ → Prop
  | zero (s : Sign) : HasInteger (.zero s) 0
  | finite (s : Sign) {n M : ℕ} {E : ℤ} (hN : Normal M E) (hv : SameValue n 0 M E) :
      HasInteger (.finite s M E hN.pos) (s.apply n)

theorem exists_sameValue {n : ℕ} (h0 : 0 < n) (h : n ≤ exactBound) :
    ∃ M E, Normal M E ∧ SameValue n 0 M E := by
  rcases Nat.lt_or_ge n (2 ^ 53) with hlt | hge
  · exact exists_normal h0 hlt (by decide) (by decide)
  · obtain rfl : n = 2 ^ 53 := le_antisymm h hge
    exact ⟨2 ^ 52, 1, ⟨by decide, by decide, by decide, by decide⟩, 1, Or.inl ⟨rfl, rfl⟩⟩

theorem hasInteger_pack {u : UnpackedFloat} {n : ℤ} (h : HasInteger u n) :
    HasInteger (Float.Model.pack u).unpack n := by
  cases h with
  | zero s =>
      rw [unpack_pack_zero]
      exact .zero s
  | finite s hN hv =>
      rw [unpack_pack_normal s hN]
      exact .finite s hN hv

theorem SameValue.eq_zero {n m : ℕ} {e : ℤ} (h : SameValue n 0 m e) : n = 0 ↔ m = 0 := by
  constructor
  · rintro rfl
    exact Nat.eq_zero_of_not_pos fun hm => absurd (h.pos hm) (Nat.lt_irrefl 0)
  · rintro rfl
    obtain ⟨k, ⟨h, -⟩ | ⟨h, -⟩⟩ := h
    · rw [h, zero_mul]
    · exact (Nat.mul_eq_zero.1 h.symm).resolve_right (Nat.two_pow_pos k).ne'

theorem hasInteger_round_zero (s : Sign) (e : ℤ) :
    HasInteger (UnpackedFloat.round Format.binary64 s 0 e) (s.apply (0 : ℕ)) := by
  have happly : s.apply (0 : ℕ) = 0 := by cases s <;> rfl
  rw [round_zero, happly]
  exact .zero s

theorem hasInteger_round (s : Sign) {n m : ℕ} {e : ℤ} (h : n ≤ exactBound)
    (hv : SameValue n 0 m e) :
    HasInteger (UnpackedFloat.round Format.binary64 s m e) (s.apply n) := by
  rcases Nat.eq_zero_or_pos n with rfl | h0
  · rw [hv.eq_zero.1 rfl]
    exact hasInteger_round_zero s e
  · obtain ⟨M, E, hN, hsame⟩ := exists_sameValue h0 h
    rw [round_eq s hN (hv.symm.trans hsame)]
    exact .finite s hN hsame

theorem apply_natAbs (n : ℤ) : (Binary64.sign (decide (n < 0))).apply n.natAbs = n := by
  by_cases hn : n < 0
  · rw [decide_eq_true hn]
    change -(n.natAbs : ℤ) = n
    omega
  · rw [decide_eq_false hn]
    change (n.natAbs : ℤ) = n
    omega

/-- Normalizing a signed mantissa whose value is an integer rounds the size of the integer. -/
theorem normalize_eq {n m : ℤ} {e : ℤ} (hv : (n : ℚ) = m * 2 ^ e) :
    SameValue n.natAbs 0 m.natAbs e ∧
      UnpackedFloat.normalize Format.binary64 m e .positive =
        if n = 0 then .zero .positive
        else UnpackedFloat.round Format.binary64 (Binary64.sign (decide (n < 0))) m.natAbs e := by
  have hpow : (0 : ℚ) < 2 ^ e := by positivity
  constructor
  · rw [sameValue_iff, zpow_zero, mul_one, Nat.cast_natAbs, Nat.cast_natAbs, Int.cast_abs,
      Int.cast_abs, hv, abs_mul, abs_of_pos hpow]
  · have hneg : n < 0 ↔ m < 0 := by
      rw [← Int.cast_lt_zero (R := ℚ), ← Int.cast_lt_zero (R := ℚ) (n := m), hv]
      exact ⟨fun h => neg_of_mul_neg_left h hpow.le, fun h => mul_neg_of_neg_of_pos h hpow⟩
    have hzero : n = 0 ↔ m = 0 := by
      rw [← Int.cast_eq_zero (α := ℚ), hv, mul_eq_zero_iff_right hpow.ne', Int.cast_eq_zero]
    unfold UnpackedFloat.normalize
    rcases lt_trichotomy m 0 with hm | hm | hm
    · have habs : (-m).toNat = m.natAbs := by omega
      rw [Int.compare_eq_lt.2 hm, if_neg (by omega), decide_eq_true (hneg.2 hm), ← habs]
      rfl
    · rw [hm, if_pos (hzero.2 hm)]
      rfl
    · have habs : m.toNat = m.natAbs := by omega
      rw [Int.compare_eq_gt.2 hm, if_neg (by omega), decide_eq_false (by omega), ← habs]
      rfl

theorem hasInteger_normalize {n m : ℤ} {e : ℤ} (h : n.natAbs ≤ exactBound)
    (hv : (n : ℚ) = m * 2 ^ e) :
    HasInteger (UnpackedFloat.normalize Format.binary64 m e .positive) n := by
  obtain ⟨hsame, heq⟩ := normalize_eq hv
  rw [heq]
  split
  · rename_i hzero
    rw [hzero]
    exact .zero .positive
  · have hround := hasInteger_round (Binary64.sign (decide (n < 0))) h hsame
    rwa [apply_natAbs] at hround

/-! ### Doubles made from integers -/

theorem hasInteger_neg {u : UnpackedFloat} {n : ℤ} (h : HasInteger u n) : HasInteger u.neg (-n) := by
  cases h with
  | zero s => exact .zero (-s)
  | @finite s n M E hN hv =>
      have happly : -s.apply n = (-s).apply n := by cases s <;> simp [Sign.apply]
      rw [happly]
      exact .finite (-s) hN hv

theorem hasInteger_abs {u : UnpackedFloat} {n : ℤ} (h : HasInteger u n) : HasInteger u.abs |n| := by
  cases h with
  | zero s =>
      rw [abs_zero]
      exact .zero .positive
  | @finite s n M E hN hv =>
      have happly : |s.apply n| = Sign.positive.apply n := by cases s <;> simp [Sign.apply]
      rw [happly]
      exact .finite .positive hN hv

theorem unpack_one :
    (Float.Model.ofBits 0x3FF0000000000000).unpack =
      .finite .positive (2 ^ 52) (-52) (Nat.two_pow_pos 52) := by
  rfl

theorem hasInteger_mul_one {u : UnpackedFloat} {n : ℤ} (h : HasInteger u n) :
    HasInteger (UnpackedFloat.mul Format.binary64 u
      (.finite .positive (2 ^ 52) (-52) (Nat.two_pow_pos 52))) n := by
  have hsign (s : Sign) : s * .positive = s := by cases s <;> rfl
  cases h with
  | zero s => exact .zero (s * .positive)
  | @finite s n M E hN hv =>
      change HasInteger (roundWithAccuracy Format.binary64 (s * .positive) (M * 2 ^ 52)
        (E - (52 : ℕ)) .exact) _
      rw [hsign, roundWithAccuracy_eq s hN 52]
      exact .finite s hN hv

theorem unpack_two_pow :
    (Float.ofNat (2 ^ 53)).toModel.unpack = .finite .positive (2 ^ 52) 1 (Nat.two_pow_pos 52) := by
  rfl

theorem hasInteger_ofNat {n : ℕ} (h : n ≤ exactBound) :
    HasInteger (Float.ofNat n).toModel.unpack n := by
  rcases Nat.lt_or_ge n (2 ^ 53) with hlt | hge
  -- Shorter integers are read from a machine word and multiplied by a power of ten, here one.
  · have hfast : (Float.ofNat n).toModel =
        Float.Model.mul (Float.Model.ofUInt64 n.toUInt64)
          (Float.Model.ofBits 0x3FF0000000000000) := by
      have hcond : n < 2 ^ 53 ∧ 0 ≤ 22 := ⟨hlt, by decide⟩
      change (Float.ofScientific n false 0).toModel = _
      rw [Float.ofScientific, dif_pos hcond]
      rfl
    have hword : n.toUInt64.toNat = n := by
      rw [Nat.toUInt64, UInt64.toNat_ofNat', Nat.mod_eq_of_lt (by omega)]
    have hmodel : HasInteger (Float.Model.ofUInt64 n.toUInt64).unpack n := by
      refine hasInteger_pack ?_
      rw [UnpackedFloat.ofUInt64, hword]
      exact hasInteger_normalize (by simpa using h) (by simp)
    rw [hfast]
    refine hasInteger_pack ?_
    rw [unpack_one]
    exact hasInteger_mul_one hmodel
  · obtain rfl : n = 2 ^ 53 := le_antisymm h hge
    rw [unpack_two_pow]
    have hN : Normal (2 ^ 52) 1 := ⟨by decide, by decide, by decide, by decide⟩
    exact HasInteger.finite .positive hN ⟨1, Or.inl ⟨rfl, rfl⟩⟩

theorem hasInteger_ofInt {n : ℤ} (h : n.natAbs ≤ exactBound) :
    HasInteger (Float.ofInt n).toModel.unpack n := by
  cases n with
  | ofNat n => exact hasInteger_ofNat h
  | negSucc n =>
      exact hasInteger_pack (hasInteger_neg (hasInteger_ofNat (n := n + 1) (by simpa using h)))

/-! ### Reading a double -/

theorem toNat_unpackMantissa (b : BitVec Format.binary64.numBits) :
    (unpackMantissa b).toNat = b.toNat % 2 ^ 52 := by
  simp [unpackMantissa]

theorem toNat_unpackExponent (b : BitVec Format.binary64.numBits) :
    (unpackExponent b).toNat = b.toNat / 2 ^ 52 % 2 ^ 11 := by
  simp [unpackExponent, Nat.shiftRight_eq_div_pow]

theorem toNat_unpackSign (b : BitVec Format.binary64.numBits) :
    (unpackSign b).toNat = b.toNat / 2 ^ 63 % 2 := by
  simp [unpackSign, Nat.shiftRight_eq_div_pow]

/-- Whether a sign is negative. -/
def isNegative : Sign → Bool
  | .negative => true
  | .positive => false

/-- What an unpacked double is, taken apart. -/
def ofUnpacked : UnpackedFloat → Binary64
  | .infinity s => .infinite (isNegative s)
  | .notANumber => .notANumber
  | .zero s => .finite (isNegative s) 0 Binary64.leastExponent
  | .finite s m e _ => .finite (isNegative s) m e

theorem ofBits_eq (b : BitVec Format.binary64.numBits) :
    Binary64.ofBits b.toNat = ofUnpacked (UnpackedFloat.unpack Format.binary64 b) := by
  have hneg : (b.toNat / 2 ^ 63 % 2 == 1) = isNegative (Sign.ofBitVec (unpackSign b)) := by
    rw [← toNat_unpackSign]
    generalize unpackSign b = v
    revert v
    decide
  have hones : unpackExponent b = -1#_ ↔ (unpackExponent b).toNat = 2047 :=
    BitVec.toNat_inj.symm
  have hzeros : unpackExponent b = 0#_ ↔ (unpackExponent b).toNat = 0 := BitVec.toNat_inj.symm
  have hfraction : unpackMantissa b = 0#_ ↔ (unpackMantissa b).toNat = 0 := BitVec.toNat_inj.symm
  have hbias : (Format.binary64.exponentBias : ℤ) = 1023 := rfl
  unfold UnpackedFloat.unpack
  simp only [Binary64.ofBits, Binary64.fractionBits, Binary64.leastExponent, Nat.pow_eq, hneg,
    ← toNat_unpackMantissa, ← toNat_unpackExponent]
  by_cases h1 : (unpackExponent b).toNat = 2047
  · rw [if_pos h1, if_pos (hones.2 h1)]
    by_cases hm : (unpackMantissa b).toNat = 0
    · rw [if_pos hm, if_pos (hfraction.2 hm)]
      rfl
    · rw [if_neg hm, if_neg (mt hfraction.1 hm)]
      rfl
  · rw [if_neg h1, if_neg (mt hones.1 h1)]
    by_cases h0 : (unpackExponent b).toNat = 0
    · rw [if_pos h0, if_pos (hzeros.2 h0)]
      by_cases hm : (unpackMantissa b).toNat = 0
      · rw [dif_pos (hfraction.2 hm), hm]
        rfl
      · rw [dif_neg (mt hfraction.1 hm), h0]
        rfl
    · rw [if_neg h0, if_neg (mt hzeros.1 h0), ofUnpacked, toNat_one_append, hbias]
      congr 1
      push_cast
      ring

theorem ofFloat_eq (x : Float) : Binary64.ofFloat x = ofUnpacked x.toModel.unpack :=
  ofBits_eq x.toModel.toBits.toBitVec

theorem signed_isNegative (s : Sign) (n : ℕ) : Binary64.signed (isNegative s) n = s.apply n := by
  cases s <;> rfl

/-- A double with an integer value is read as that integer. -/
theorem HasInteger.isInteger {u : UnpackedFloat} {n : ℤ} (h : HasInteger u n) :
    (ofUnpacked u).isInteger = true := by
  cases h with
  | zero s => simp [ofUnpacked, Binary64.isInteger]
  | @finite s n M E hN hv =>
      obtain ⟨k, ⟨rfl, hE⟩ | ⟨rfl, hE⟩⟩ := hv
      · have hE0 : 0 ≤ E := by omega
        simp [ofUnpacked, Binary64.isInteger, hE0]
      · have hk : (-E).toNat = k := by omega
        simp [ofUnpacked, Binary64.isInteger, hk]

theorem HasInteger.toInteger {u : UnpackedFloat} {n : ℤ} (h : HasInteger u n)
    (hn : n.natAbs ≤ exactBound) : (ofUnpacked u).toInteger = n := by
  have hbound : n.natAbs ≤ 2 ^ 53 := hn
  cases h with
  | zero s =>
      have hzero : Binary64.signed (isNegative s) 0 = 0 := by cases s <;> rfl
      simp only [ofUnpacked, Binary64.toInteger, zero_mul, Nat.zero_div, ite_self, hzero]
      rfl
  | @finite s n M E hN hv =>
      have hmagnitude : (if 0 ≤ E then M * 2 ^ E.toNat else M / 2 ^ (-E).toNat) = n := by
        obtain ⟨k, ⟨rfl, hE⟩ | ⟨rfl, hE⟩⟩ := hv
        · have hk : E.toNat = k := by omega
          rw [if_pos (by omega), hk]
        · rcases Nat.eq_zero_or_pos k with rfl | hk
          · have hE0 : E = 0 := by omega
            simp [hE0]
          · have hkE : (-E).toNat = k := by omega
            rw [if_neg (by omega), hkE, Nat.mul_div_cancel _ (Nat.two_pow_pos k)]
      simp only [ofUnpacked, Binary64.toInteger, Binary64.leastInteger, Binary64.greatestInteger,
        Nat.pow_eq, hmagnitude, signed_isNegative]
      omega

/-! ### Sum and remainder -/

theorem SameValue.apply_eq {n m : ℕ} {e : ℤ} (h : SameValue n 0 m e) (s : Sign) :
    (s.apply n : ℚ) = s.apply m * 2 ^ e := by
  have hrat := sameValue_iff.1 h
  rw [zpow_zero, mul_one] at hrat
  cases s with
  | negative => simpa [Sign.apply] using hrat
  | positive => simpa [Sign.apply] using hrat

/-- The sum of integers is computed exactly before it is rounded. -/
theorem HasInteger.add_cases {u v : UnpackedFloat} {a b : ℤ} (hu : HasInteger u a)
    (hv : HasInteger v b) :
    HasInteger (UnpackedFloat.add Format.binary64 u v) (a + b) ∨
      ∃ m e : ℤ, ((a + b : ℤ) : ℚ) = m * 2 ^ e ∧ UnpackedFloat.add Format.binary64 u v =
        UnpackedFloat.normalize Format.binary64 m e .positive := by
  cases hu with
  | zero s =>
      cases hv with
      | zero t =>
          have hzero : HasInteger (if s == t then .zero s else .zero .positive) (0 + 0) := by
            split
            · exact .zero s
            · exact .zero .positive
          exact Or.inl hzero
      | finite t hN hv =>
          rw [zero_add]
          exact Or.inl (.finite t hN hv)
  | @finite s n M E hN hn =>
      cases hv with
      | zero t =>
          rw [add_zero]
          exact Or.inl (.finite s hN hn)
      | @finite t n' M' E' hN' hn' =>
          refine Or.inr ⟨_, min E E', ?_, rfl⟩
          -- At the smaller exponent the mantissas add up like the integers.
          have hM := (hn.align (min_le_left E E')).apply_eq s
          have hM' := (hn'.align (min_le_right E E')).apply_eq t
          simp only [Nat.shiftLeft_eq]
          push_cast at hM hM' ⊢
          rw [hM, hM', add_mul]

/-- A sum of integers that is small enough is exact. -/
theorem HasInteger.add {u v : UnpackedFloat} {a b : ℤ} (hu : HasInteger u a) (hv : HasInteger v b)
    (h : (a + b).natAbs ≤ exactBound) :
    HasInteger (UnpackedFloat.add Format.binary64 u v) (a + b) := by
  rcases hu.add_cases hv with hsum | ⟨m, e, hvalue, hsum⟩
  · exact hsum
  · rw [hsum]
    exact hasInteger_normalize h hvalue

theorem sign_isNegative (s : Sign) : Binary64.sign (isNegative s) = s := by
  cases s <;> rfl

/-- An integer with a mantissa that fits is not changed by rounding. -/
theorem hasInteger_round_of_lt (s : Sign) {n m : ℕ} {e : ℤ} (hv : SameValue n 0 m e)
    (hm : m < 2 ^ 53) (he : e ≤ 971) :
    HasInteger (UnpackedFloat.round Format.binary64 s m e) (s.apply n) := by
  rcases Nat.eq_zero_or_pos m with rfl | h0
  · rw [hv.eq_zero.2 rfl]
    exact hasInteger_round_zero s e
  · have hmin : -1022 ≤ e := by
      obtain ⟨k, ⟨-, hk⟩ | ⟨rfl, hk⟩⟩ := hv
      · omega
      · have hn : 0 < n := Nat.pos_of_mul_pos_right h0
        have hpow : 2 ^ k < 2 ^ 53 := (Nat.le_mul_of_pos_left _ hn).trans_lt hm
        have hk53 : k < 53 := (Nat.pow_lt_pow_iff_right (by decide)).1 hpow
        omega
    obtain ⟨M, E, hN, hsame⟩ := exists_normal h0 hm hmin he
    rw [round_eq s hN hsame]
    exact .finite s hN (hv.trans hsame)

/-- The remainder of two integers is exact, however large they are: at the smaller exponent one of
the mantissas is not shifted, and the remainder is no longer than it. -/
theorem HasInteger.truncatedRemainder {u v : UnpackedFloat} {n m : ℤ} (hu : HasInteger u n)
    (hv : HasInteger v m) (h0 : m ≠ 0) :
    HasInteger
      (Binary64.truncatedRemainder (ofUnpacked u) (ofUnpacked v)).toFloat.toModel.unpack
      (n.tmod m) := by
  cases hv with
  | zero t => exact absurd rfl h0
  | @finite t k M' E' hN' hk =>
      have hM' : M' ≠ 0 := hN'.pos.ne'
      cases hu with
      | zero s =>
          simp only [ofUnpacked, Binary64.truncatedRemainder, hM', if_false, zero_mul, Nat.zero_mod]
          rw [Binary64.toFloat, Binary64.finiteFloat, round_zero, Int.zero_tmod]
          exact hasInteger_pack (.zero _)
      | @finite s n M E hN hn =>
          have hmod : (s.apply n).tmod (t.apply k) = s.apply (n % k : ℕ) := by
            have hnat : (n : ℤ).tmod k = n % k := (Int.ofNat_tmod n k).symm
            cases s <;> cases t <;> simp [Sign.apply, Int.neg_tmod, Int.tmod_neg, hnat]
          have hA := hn.align (min_le_left E E')
          have hB := hk.align (min_le_right E E')
          have hBpos : 0 < M' * 2 ^ (E' - min E E').toNat := Nat.mul_pos hN'.pos (Nat.two_pow_pos _)
          have hlt : M * 2 ^ (E - min E E').toNat % (M' * 2 ^ (E' - min E E').toNat) < 2 ^ 53 := by
            rcases Int.le_total E E' with hle | hle
            · have hzero : (E - min E E').toNat = 0 := by omega
              rw [hzero, pow_zero, mul_one]
              exact (Nat.mod_le _ _).trans_lt hN.lt
            · have hzero : (E' - min E E').toNat = 0 := by omega
              rw [hzero, pow_zero, mul_one] at hBpos ⊢
              exact (Nat.mod_lt _ hBpos).trans hN'.lt
          have hmax : min E E' ≤ 971 := (min_le_left E E').trans hN.maximal
          simp only [ofUnpacked, Binary64.truncatedRemainder, Nat.pow_eq, hM', if_false]
          rw [Binary64.toFloat, Binary64.finiteFloat, sign_isNegative, hmod]
          exact hasInteger_pack (hasInteger_round_of_lt s (hA.mod hB) hlt hmax)

theorem lt_zero_eq {u : UnpackedFloat} {n : ℤ} (h : HasInteger u n) (s : Sign) :
    u.lt (.zero s) = decide (n < 0) := by
  cases h with
  | zero t => rfl
  | @finite t n M E hN hv =>
      have hpos := hv.pos hN.pos
      cases t with
      | negative =>
          have hneg : Sign.negative.apply n < 0 := by simpa [Sign.apply] using hpos
          rw [decide_eq_true hneg]
          rfl
      | positive =>
          have hneg : ¬ Sign.positive.apply n < 0 := by simp [Sign.apply]
          rw [decide_eq_false hneg]
          rfl

theorem lt_iff (x y : Float) : x < y ↔ x.toModel.unpack.lt y.toModel.unpack = true := by
  change decide (x.toModel < y.toModel) = true ↔ _
  rw [decide_eq_true_iff]
  rfl

theorem beq_iff (x y : Float) : (x == y) = x.toModel.unpack.beq y.toModel.unpack := rfl

theorem unpack_zero : (0 : Float).toModel.unpack = .zero .positive := by
  rfl

theorem HasInteger.lt_zero_iff {x : Float} {n : ℤ} (h : HasInteger x.toModel.unpack n) :
    x < 0 ↔ n < 0 := by
  rw [lt_iff, unpack_zero, lt_zero_eq h, decide_eq_true_iff]

theorem emod_eq_of_tmod_nonneg {n : ℤ} {m : ℕ} (h : 0 ≤ n.tmod m) : n % m = n.tmod m := by
  have hcond : 0 ≤ n ∨ (m : ℤ) ∣ n := by
    rcases lt_or_ge n 0 with hn | hn
    · have hneg : (-n).tmod m = -n.tmod m := Int.neg_tmod n m
      have hnonneg := Int.tmod_nonneg (m : ℤ) (a := -n) (by omega)
      exact Or.inr (Int.dvd_of_tmod_eq_zero (by omega))
    · exact Or.inl hn
  rw [Int.emod_eq_tmod, if_pos hcond, Nat.cast_zero, add_zero]

theorem emod_eq_of_tmod_neg {n : ℤ} {m : ℕ} (h : n.tmod m < 0) : n % m = n.tmod m + m := by
  have hcond : ¬ (0 ≤ n ∨ (m : ℤ) ∣ n) := by
    rintro (hn | hn)
    · exact absurd (Int.tmod_nonneg m hn) (Int.not_le.2 h)
    · rw [Int.tmod_eq_zero_of_dvd hn] at h
      exact absurd h (Int.lt_irrefl 0)
  rw [Int.emod_eq_tmod, if_neg hcond, Int.natAbs_natCast]

theorem beq_zero_eq {u : UnpackedFloat} {n : ℤ} (h : HasInteger u n) (hn : n ≠ 0) (s : Sign) :
    u.beq (.zero s) = false := by
  cases h with
  | zero t => exact absurd rfl hn
  | finite t hN hv => cases t <;> rfl

/-- The remainder of an integer by an extent is the remainder of the integers. -/
theorem hasInteger_remainder {x y : Float} {n : ℤ} {m : ℕ} (hx : HasInteger x.toModel.unpack n)
    (hy : HasInteger y.toModel.unpack m) (h0 : 0 < m) (hm : m < extentBound) :
    HasInteger (remainder x y).toModel.unpack (n % m) := by
  have hm0 : (m : ℤ) ≠ 0 := Int.natCast_ne_zero.2 h0.ne'
  have hr := hx.truncatedRemainder hy hm0
  rw [← ofFloat_eq, ← ofFloat_eq] at hr
  unfold remainder
  generalize (Binary64.truncatedRemainder (.ofFloat x) (.ofFloat y)).toFloat = r at hr ⊢
  have hlt := hr.lt_zero_iff
  by_cases hneg : n.tmod m < 0
  · have hsum : n % m = n.tmod m + |(m : ℤ)| := by
      rw [emod_eq_of_tmod_neg hneg, Nat.abs_cast]
    have hsmall : (n % m).natAbs ≤ exactBound := by
      have hnonneg := Int.emod_nonneg n hm0
      have hbelow := Int.emod_lt_of_pos n (Int.natCast_pos.2 h0)
      simp only [exactBound, extentBound] at hm ⊢
      omega
    simp only [hlt, hneg, if_true]
    rw [hsum] at hsmall ⊢
    exact hasInteger_pack (hr.add (hasInteger_pack (hasInteger_abs hy)) hsmall)
  · simp only [hlt, hneg, if_false]
    rw [emod_eq_of_tmod_nonneg (Int.not_lt.1 hneg)]
    exact hr

theorem hasInteger_extent {length : ℕ} (h : length < extentBound) :
    HasInteger (Float.ofInt length).toModel.unpack length := by
  have hbound : extentBound ≤ exactBound := by decide
  exact hasInteger_ofInt (by simpa using h.le.trans hbound)

end Double

open Double

instance instIntegerScalarFloat : IntegerScalar Float where
  isInteger_ofInt {n} hn := by
    change (Binary64.ofFloat (Float.ofInt n)).isInteger = true
    rw [ofFloat_eq]
    exact (hasInteger_ofInt hn).isInteger
  toInteger_ofInt {n} hn := by
    change (Binary64.ofFloat (Float.ofInt n)).toInteger = n
    rw [ofFloat_eq]
    exact (hasInteger_ofInt hn).toInteger hn
  isZero_ofInt {n} hn h0 := by
    change (Float.ofInt n == Float.ofInt 0) = false
    rw [beq_iff]
    exact beq_zero_eq (hasInteger_ofInt hn) h0 .positive
  isInteger_rem {n length} hn h0 hlength := by
    change (Binary64.ofFloat (remainder (Float.ofInt n) (Float.ofInt length))).isInteger = true
    rw [ofFloat_eq]
    exact (hasInteger_remainder (hasInteger_ofInt hn) (hasInteger_extent hlength) h0
      hlength).isInteger
  toInteger_rem {n length} hn h0 hlength := by
    change (Binary64.ofFloat (remainder (Float.ofInt n) (Float.ofInt length))).toInteger = _
    rw [ofFloat_eq]
    refine (hasInteger_remainder (hasInteger_ofInt hn) (hasInteger_extent hlength) h0
      hlength).toInteger ?_
    have hnonneg := Int.emod_nonneg n (Int.natCast_ne_zero.2 h0.ne')
    have hbelow := Int.emod_lt_of_pos n (Int.natCast_pos.2 h0)
    simp only [exactBound, extentBound] at *
    omega

end Electrokinetics
