/-
**Integers among the doubles, however large.**

From `2 ^ 53` on a double may round an integer that it is made from, but what it rounds to is an integer
again: the last place of so large a double is worth at least two.  So coordinates, extents and what
identifies the noise stay integers on their way into a random key, over the whole range of 64-bit
integers and beyond.

Main definitions:

* `Double.greatest` — the greatest double.

Main results:

* `Double.exists_hasInteger_round` — rounding an integer that is not too large gives an integer;
* `Double.exists_hasInteger_of_isInteger` — what passes the test for integers has an integer value;
* `Double.exists_hasInteger_remainder` — the remainder of two integers is an integer;
* `Double.isInteger_ofInt`, `Double.isInteger_rem` — the same as the tests that random keys make.
-/

import Electrokinetics.Proofs.Scalar.DoubleInteger

set_option relaxedAutoImplicit false
set_option autoImplicit false

namespace Electrokinetics

namespace Double

open Float.Model Float.Model.UnpackedFloat

/-- The greatest double. -/
def greatest : ℕ := (2 ^ 53 - 1) * 2 ^ 971

theorem two_pow_le_greatest {k : ℕ} (h : k ≤ 1023) : 2 ^ k ≤ greatest := by
  have hpow : 2 ^ k ≤ 2 ^ (52 + 971) := by gcongr; exact one_le_two
  rw [pow_add] at hpow
  rw [greatest]
  exact hpow.trans (Nat.mul_le_mul_right _ (by decide))

/-! ### Rounding a large integer -/

theorem mantissa_shiftRight (em : ExtendedMantissa) (k : ℕ) :
    (em >>> k).mantissa = em.mantissa / 2 ^ k := by
  change (k.repeat ExtendedMantissa.shiftRightOne em).mantissa = _
  induction k generalizing em with
  | zero => simp [Nat.repeat]
  | succ k ih =>
      rw [Nat.repeat, ExtendedMantissa.shiftRightOne, ih, Nat.div_div_eq_div_mul, pow_succ]

theorem roundedMantissa_eq (em : ExtendedMantissa) :
    em.roundedMantissa = em.mantissa ∨ em.roundedMantissa = em.mantissa + 1 := by
  obtain ⟨m, roundBit, stickyBit⟩ := em
  cases roundBit with
  | false => cases stickyBit <;> exact Or.inl rfl
  | true =>
      cases stickyBit with
      | true => exact Or.inr rfl
      | false =>
          change m + m % 2 = m ∨ m + m % 2 = m + 1
          omega

theorem totalExponent_eq {N m : ℕ} {e : ℤ} (h0 : 0 < N) (h : SameValue N 0 m e) :
    totalExponent m e = N.log2 + 1 := by
  obtain ⟨k, ⟨rfl, hk⟩ | ⟨rfl, hk⟩⟩ := h
  · have hm : 0 < m := Nat.pos_of_mul_pos_right h0
    rw [totalExponent, log2_mul_two_pow hm]
    push_cast
    omega
  · rw [totalExponent, log2_mul_two_pow h0]
    push_cast
    omega

/-- The value of a double whose last place is worth at least one. -/
theorem Normal.hasInteger (s : Sign) {M : ℕ} {E : ℤ} (h : Normal M E) (hE : 0 ≤ E) :
    ∃ n : ℕ, HasInteger (.finite s M E h.pos) (s.apply n) :=
  ⟨M * 2 ^ E.toNat, .finite s h ⟨E.toNat, Or.inl ⟨rfl, by omega⟩⟩⟩

/-- A mantissa that is one too long after rounding is shifted once more. -/
theorem shiftToTargetExponent_rounded {q k : ℕ} (hle : 2 ^ 52 ≤ q) (hq : q ≤ 2 ^ 53) (hk : k ≤ 971)
    (hcarry : q = 2 ^ 53 → k ≤ 970) :
    ∃ (M : ℕ) (E : ℤ) (_ : Normal M E), 0 ≤ E ∧
      shiftToTargetExponent Format.binary64 q k .exact = (⟨M, false, false⟩, E) := by
  rcases Nat.lt_or_ge q (2 ^ 53) with hlt | hge
  · have hN : Normal q k := ⟨hle, hlt, by omega, by omega⟩
    have hshift := shiftToTargetExponent_eq hN 0
    rw [pow_zero, mul_one, Nat.cast_zero, sub_zero] at hshift
    exact ⟨q, k, hN, by omega, hshift⟩
  · obtain rfl : q = 2 ^ 52 * 2 ^ 1 := le_antisymm hq hge
    have hbelow := hcarry rfl
    have hN : Normal (2 ^ 52) (k + 1) := ⟨le_rfl, by decide, by omega, by omega⟩
    have hshift := shiftToTargetExponent_eq hN 1
    rw [Nat.cast_one, add_sub_cancel_right] at hshift
    exact ⟨2 ^ 52, k + 1, hN, by omega, hshift⟩

/-- An integer that is the value of a double is not changed by rounding. -/
theorem hasInteger_roundWithAccuracy (s : Sign) {N m M : ℕ} {e E : ℤ} (hM : Normal M E)
    (hsame : SameValue N 0 M E) (hv : SameValue N 0 m e) (he : e ≤ N.log2 - 52) :
    HasInteger (roundWithAccuracy Format.binary64 s m e .exact) (s.apply N) := by
  have htotal := totalExponent_eq (hsame.pos hM.pos) hsame
  rw [totalExponent, hM.log2] at htotal
  have hround : roundWithAccuracy Format.binary64 s m e .exact = .finite s M E hM.pos := by
    obtain ⟨k, ⟨rfl, hk⟩ | ⟨rfl, hk⟩⟩ := hv.symm.trans hsame
    · obtain rfl : e = E - k := by omega
      exact roundWithAccuracy_eq s hM k
    · obtain rfl : k = 0 := by omega
      obtain rfl : e = E := by omega
      have hzero := roundWithAccuracy_eq s hM 0
      rw [Nat.cast_zero, sub_zero] at hzero
      simpa using hzero
  rw [hround]
  exact .finite s hM hsame

/-- The bits of an integer in front of its last `k` bits, read off any mantissa with its value. -/
theorem SameValue.div_eq {N m k : ℕ} {e : ℤ} (h : SameValue N 0 m e) (he : e ≤ k) :
    m / 2 ^ (k - e).toNat = N / 2 ^ k := by
  obtain ⟨i, ⟨rfl, hi⟩ | ⟨rfl, hi⟩⟩ := h
  · have hk : k = (k - e).toNat + i := by omega
    rw [hk, pow_add, Nat.mul_div_mul_right _ _ (Nat.two_pow_pos i), ← hk]
  · have hk : (k - e).toNat = k + i := by omega
    rw [hk, pow_add, Nat.mul_div_mul_right _ _ (Nat.two_pow_pos i)]

theorem log2_lt_of_le {N M k : ℕ} (h0 : 0 < N) (hM : M < 2 ^ 53) (hN : N ≤ M * 2 ^ k) :
    N.log2 < 53 + k := by
  refine (Nat.log2_lt h0.ne').2 (hN.trans_lt ?_)
  rw [pow_add]
  exact Nat.mul_lt_mul_of_pos_right hM (Nat.two_pow_pos k)

/-- Rounding an integer that is not too large gives an integer. -/
theorem exists_hasInteger_roundWithAccuracy (s : Sign) {N m : ℕ} {e : ℤ} (h0 : 0 < N)
    (hN : N ≤ greatest) (hv : SameValue N 0 m e) (he : e ≤ N.log2 - 52) :
    ∃ n : ℕ, HasInteger (roundWithAccuracy Format.binary64 s m e .exact) (s.apply n) := by
  by_cases hexact : ∃ M E, Normal M E ∧ SameValue N 0 M E
  · obtain ⟨M, E, hM, hsame⟩ := hexact
    exact ⟨N, hasInteger_roundWithAccuracy s hM hsame hv he⟩
  have hlarge : 2 ^ 53 < N := by
    by_contra hsmall
    exact hexact (exists_sameValue h0 (Nat.not_lt.1 hsmall))
  have hself := Nat.log2_self_le h0.ne'
  have hlt := Nat.lt_log2_self (n := N)
  have hlog : 53 ≤ N.log2 := (Nat.le_log2 h0.ne').2 hlarge.le
  obtain ⟨k, hk⟩ : ∃ k, N.log2 = 52 + k := ⟨N.log2 - 52, by omega⟩
  rw [hk, pow_add] at hself
  rw [hk, Nat.add_right_comm, pow_add] at hlt
  -- What is kept are the 53 leading bits, and rounding adds at most one to them.
  set q := N / 2 ^ k with hq
  have hqle : 2 ^ 52 ≤ q := (Nat.le_div_iff_mul_le (Nat.two_pow_pos k)).2 hself
  have hqlt : q < 2 ^ 53 := (Nat.div_lt_iff_lt_mul (Nat.two_pow_pos k)).2 hlt
  have hqN : q * 2 ^ k ≤ N := Nat.div_mul_le_self N (2 ^ k)
  have hk971 : k ≤ 971 := by
    have hbits : N.log2 < 53 + 971 := log2_lt_of_le h0 (by decide) hN
    omega
  have hshift : shiftToTargetExponent Format.binary64 m e .exact =
      (ExtendedMantissa.ofMantissaAndAccuracy m .exact >>> (k - e).toNat, (k : ℤ)) := by
    have htarget : Format.binary64.targetExponent (totalExponent m e) = k := by
      rw [targetExponent_eq, totalExponent_eq h0 hv]
      omega
    rw [shiftToTargetExponent, shiftToExponent, htarget]
    exact Prod.ext rfl (by omega)
  have hmantissa : (ExtendedMantissa.ofMantissaAndAccuracy m .exact >>> (k - e).toNat).mantissa =
      q := by
    rw [mantissa_shiftRight, hq, ← hv.div_eq (by omega)]
    rfl
  unfold roundWithAccuracy
  rw [hshift]
  generalize ExtendedMantissa.ofMantissaAndAccuracy m .exact >>> (k - e).toNat = em at hmantissa
  have hrounded := roundedMantissa_eq em
  rw [hmantissa] at hrounded
  have hcarry : em.roundedMantissa = 2 ^ 53 → k ≤ 970 := by
    intro hcarry
    by_contra hlast
    obtain rfl : k = 971 := by omega
    have hqmax : q = 2 ^ 53 - 1 := by omega
    -- With all 53 bits set and the greatest exponent the integer is the greatest double.
    refine hexact ⟨2 ^ 53 - 1, 971, ⟨by decide, by decide, by decide, by decide⟩, 971,
      Or.inl ⟨le_antisymm hN ?_, rfl⟩⟩
    rw [← hqmax]
    exact hqN
  obtain ⟨M, E, hM, hE, hfinal⟩ :=
    shiftToTargetExponent_rounded (q := em.roundedMantissa) (by omega) (by omega) hk971 hcarry
  simp only [hfinal]
  rw [dif_neg hM.pos.ne']
  exact hM.hasInteger s hE

theorem exists_hasInteger_round (s : Sign) {N m : ℕ} {e : ℤ} (hN : N ≤ greatest)
    (hv : SameValue N 0 m e) :
    ∃ n : ℕ, HasInteger (UnpackedFloat.round Format.binary64 s m e) (s.apply n) := by
  rcases Nat.eq_zero_or_pos N with rfl | h0
  · rw [hv.eq_zero.1 rfl]
    exact ⟨0, hasInteger_round_zero s e⟩
  · have htarget : Format.binary64.targetExponent (totalExponent m e) = N.log2 - 52 := by
      rw [targetExponent_eq, totalExponent_eq h0 hv]
      omega
    simp only [UnpackedFloat.round, decreaseExponent]
    rw [htarget, Nat.shiftLeft_eq]
    exact exists_hasInteger_roundWithAccuracy s h0 hN (hv.trans (sameValue_shift m e _)) (by omega)

/-! ### Integers of any size -/

theorem HasInteger.natAbs_le {u : UnpackedFloat} {n : ℤ} (h : HasInteger u n) :
    n.natAbs ≤ greatest := by
  cases h with
  | zero s => exact Nat.zero_le _
  | @finite s n M E hN hv =>
      have hsize : (s.apply n).natAbs = n := by cases s <;> simp [Sign.apply]
      have hlt := hN.lt
      have hmax := hN.maximal
      rw [hsize]
      obtain ⟨k, ⟨rfl, hk⟩ | ⟨rfl, hk⟩⟩ := hv
      · rw [greatest]
        gcongr
        exacts [by omega, one_le_two, by omega]
      · have hbelow : n < 2 ^ 53 := (Nat.le_mul_of_pos_right n (Nat.two_pow_pos k)).trans_lt hlt
        exact hbelow.le.trans (two_pow_le_greatest (by decide))

theorem exists_hasInteger_normalize {n m : ℤ} {e : ℤ} (h : n.natAbs ≤ greatest)
    (hv : (n : ℚ) = m * 2 ^ e) :
    ∃ k, HasInteger (UnpackedFloat.normalize Format.binary64 m e .positive) k := by
  obtain ⟨hsame, heq⟩ := normalize_eq hv
  rw [heq]
  split
  · exact ⟨0, .zero .positive⟩
  · obtain ⟨k, hk⟩ := exists_hasInteger_round (Binary64.sign (decide (n < 0))) h hsame
    exact ⟨_, hk⟩

theorem HasInteger.exists_add {u v : UnpackedFloat} {a b : ℤ} (hu : HasInteger u a)
    (hv : HasInteger v b) (h : (a + b).natAbs ≤ greatest) :
    ∃ k, HasInteger (UnpackedFloat.add Format.binary64 u v) k := by
  rcases hu.add_cases hv with hsum | ⟨m, e, hvalue, hsum⟩
  · exact ⟨_, hsum⟩
  · rw [hsum]
    exact exists_hasInteger_normalize h hvalue

theorem HasInteger.eq_zero {u : UnpackedFloat} (h : HasInteger u 0) : ∃ s, u = .zero s := by
  generalize hz : (0 : ℤ) = n at h
  cases h with
  | zero s => exact ⟨s, rfl⟩
  | @finite s n M E hN hv =>
      have hpos := hv.pos hN.pos
      cases s <;> simp only [Sign.apply] at hz <;> omega

/-- The remainder of two integers is an integer. -/
theorem exists_hasInteger_remainder {x y : Float} {n m : ℤ} (hx : HasInteger x.toModel.unpack n)
    (hy : HasInteger y.toModel.unpack m) (h0 : m ≠ 0) :
    ∃ k, HasInteger (remainder x y).toModel.unpack k := by
  have hr := hx.truncatedRemainder hy h0
  rw [← ofFloat_eq, ← ofFloat_eq] at hr
  unfold remainder
  generalize (Binary64.truncatedRemainder (.ofFloat x) (.ofFloat y)).toFloat = r at hr ⊢
  by_cases hneg : r < 0
  · -- The remainder is below zero and shorter than the modulus, so the sum is no longer than it.
    have htmod := hr.lt_zero_iff.1 hneg
    have hshort : (n.tmod m).natAbs < m.natAbs := by
      rw [Int.natAbs_tmod]
      exact Nat.mod_lt _ (Int.natAbs_pos.2 h0)
    have hsize : (n.tmod m + |m|).natAbs ≤ greatest := by
      refine le_trans ?_ hy.natAbs_le
      rw [Int.abs_eq_natAbs]
      omega
    obtain ⟨k, hk⟩ := hr.exists_add (hasInteger_pack (hasInteger_abs hy)) hsize
    simp only [hneg, if_true]
    exact ⟨k, hasInteger_pack hk⟩
  · simp only [hneg, if_false]
    exact ⟨_, hr⟩

theorem exists_hasInteger_ofNat {n : ℕ} (h : n ≤ greatest) :
    ∃ k, HasInteger (Float.ofNat n).toModel.unpack k := by
  rcases Nat.lt_or_ge n (2 ^ 53) with hlt | hge
  · exact ⟨n, hasInteger_ofNat hlt.le⟩
  -- Longer integers are rounded as they are read.
  · have h0 : 0 < n := (Nat.two_pow_pos 53).trans_le hge
    have hmodel : (Float.ofNat n).toModel = Float.Model.pack (roundWithAccuracy Format.binary64
        .positive (n * 2 ^ 53) (0 - (53 : ℕ)) .exact) := by
      have hcond : ¬ (n < 2 ^ 53 ∧ 0 ≤ 22) := fun h => absurd h.1 (Nat.not_lt.2 hge)
      change (Float.ofScientific n false 0).toModel = _
      rw [Float.ofScientific, dif_neg hcond]
      have hzero : ¬ (0 : ℤ) > 2 ^ Format.binary64.exponentBits := by decide
      have hbits : ¬ (0 : ℤ) < -(2 ^ Format.binary64.exponentBits + (n.log2 : ℤ)) := by
        have hpow : (0 : ℤ) ≤ 2 ^ Format.binary64.exponentBits := by decide
        omega
      change Float.Model.pack (UnpackedFloat.ofScientific Format.binary64 n 0) = _
      rw [UnpackedFloat.ofScientific, dif_neg h0.ne', if_neg hzero, if_neg hbits, if_pos le_rfl]
      change Float.Model.pack (roundWithAccuracy Format.binary64 .positive
        (n <<< 53 * 10 ^ (0 : ℤ).toNat) (-(53 : ℕ) + 0) .exact) = _
      rw [Nat.shiftLeft_eq, Int.toNat_zero, pow_zero, mul_one, add_zero, zero_sub]
    have hsmall : (0 - (53 : ℕ) : ℤ) ≤ n.log2 - 52 := by omega
    obtain ⟨k, hk⟩ :=
      exists_hasInteger_roundWithAccuracy .positive h0 h (sameValue_shift n 0 53) hsmall
    rw [hmodel]
    exact ⟨_, hasInteger_pack hk⟩

theorem exists_hasInteger_ofInt {n : ℤ} (h : n.natAbs ≤ greatest) :
    ∃ k, HasInteger (Float.ofInt n).toModel.unpack k := by
  cases n with
  | ofNat n => exact exists_hasInteger_ofNat h
  | negSucc n =>
      obtain ⟨k, hk⟩ := exists_hasInteger_ofNat (n := n + 1) (by simpa using h)
      exact ⟨-k, hasInteger_pack (hasInteger_neg hk)⟩

/-! ### The test for integers -/

/-- A finite double has its leading bit set or is very small. -/
theorem normal_or_small_of_unpack {b : BitVec Format.binary64.numBits} {s : Sign} {m : ℕ} {e : ℤ}
    {h : 0 < m} (hu : UnpackedFloat.unpack Format.binary64 b = .finite s m e h) :
    Normal m e ∨ m < 2 ^ 52 ∧ e = -1074 := by
  have hbias : (Format.binary64.exponentBias : ℤ) = 1023 := rfl
  have hbits := (unpackMantissa b).isLt
  unfold UnpackedFloat.unpack at hu
  simp only at hu
  split at hu
  · split at hu <;> cases hu
  · rename_i hones
    split at hu
    · rename_i hzeros
      split at hu
      · cases hu
      · injection hu with hs hm he
        rw [hzeros, hbias] at he
        refine Or.inr ⟨hm ▸ hbits, ?_⟩
        rw [← he]
        rfl
    · rename_i hzeros
      have hlt := (unpackExponent b).isLt
      have h1 : (unpackExponent b).toNat ≠ 2047 := fun h => hones (BitVec.toNat_inj.1 h)
      have h0 : (unpackExponent b).toNat ≠ 0 := fun h => hzeros (BitVec.toNat_inj.1 h)
      injection hu with hs hm he
      rw [toNat_one_append] at hm
      rw [hbias] at he
      change (unpackExponent b).toNat < 2 ^ 11 at hlt
      change (unpackMantissa b).toNat < 2 ^ 52 at hbits
      change _ - (1023 + (52 : ℕ) : ℤ) = e at he
      exact Or.inl ⟨by omega, by omega, by omega, by omega⟩

/-- What passes the test for integers has an integer value. -/
theorem exists_hasInteger_of_isInteger {x : Float} (h : (Binary64.ofFloat x).isInteger = true) :
    ∃ n, HasInteger x.toModel.unpack n := by
  rw [ofFloat_eq] at h
  cases hu : x.toModel.unpack with
  | notANumber => rw [hu] at h; cases h
  | infinity s => rw [hu] at h; cases h
  | zero s => exact ⟨0, .zero s⟩
  | finite s m e hm =>
      have hdvd : 0 ≤ e ∨ m % 2 ^ (-e).toNat = 0 := by
        simpa [hu, ofUnpacked, Binary64.isInteger] using h
      rcases normal_or_small_of_unpack hu with hN | ⟨hlt, rfl⟩
      · rcases hdvd with he | hmod
        · obtain ⟨n, hn⟩ := hN.hasInteger s he
          exact ⟨_, hn⟩
        · rcases Int.le_total 0 e with he | he
          · obtain ⟨n, hn⟩ := hN.hasInteger s he
            exact ⟨_, hn⟩
          · exact ⟨_, .finite s hN ⟨(-e).toNat,
              Or.inr ⟨(Nat.div_mul_cancel (Nat.dvd_of_mod_eq_zero hmod)).symm, by omega⟩⟩⟩
      · -- A multiple of so high a power of two has more bits than a mantissa.
        have hmod := hdvd.resolve_left (by decide)
        have hle := Nat.le_of_dvd hm (Nat.dvd_of_mod_eq_zero hmod)
        have hbits : m < 2 ^ (-(-1074 : ℤ)).toNat :=
          hlt.trans ((Nat.pow_lt_pow_iff_right (by decide)).2 (by decide))
        exact absurd hle (Nat.not_le.2 hbits)

theorem isInteger_iff {x : Float} :
    Scalar.isInteger x = true ↔ ∃ n, HasInteger x.toModel.unpack n := by
  constructor
  · exact exists_hasInteger_of_isInteger
  · rintro ⟨n, hn⟩
    change (Binary64.ofFloat x).isInteger = true
    rw [ofFloat_eq]
    exact hn.isInteger

/-- A 64-bit integer is still an integer after rounding. -/
theorem isInteger_ofInt {n : ℤ} (h : n.natAbs ≤ 2 ^ 63) :
    Scalar.isInteger (Scalar.ofInt n : Float) = true :=
  isInteger_iff.2 (exists_hasInteger_ofInt (h.trans (two_pow_le_greatest (by decide))))

theorem isZero_of_pos {x : Float} (h : 0 < x) : Scalar.isZero x = false := by
  rw [lt_iff, unpack_zero] at h
  change (x == Float.ofInt 0) = false
  rw [beq_iff]
  generalize x.toModel.unpack = u at h ⊢
  cases u with
  | zero s => cases h
  | infinity s => cases s <;> rfl
  | notANumber => rfl
  | finite s m e hm => cases s <;> rfl

/-- The remainder of two integers is an integer, unless the modulus is zero. -/
theorem isInteger_rem {x y : Float} (hx : Scalar.isInteger x = true) (hy : Scalar.isInteger y = true)
    (h0 : Scalar.isZero y = false) : Scalar.isInteger (Scalar.rem x y) = true := by
  obtain ⟨n, hn⟩ := isInteger_iff.1 hx
  obtain ⟨m, hm⟩ := isInteger_iff.1 hy
  refine isInteger_iff.2 (exists_hasInteger_remainder hn hm ?_)
  rintro rfl
  change (y == Float.ofInt 0) = false at h0
  rw [beq_iff] at h0
  obtain ⟨s, hs⟩ := hm.eq_zero
  rw [hs] at h0
  cases s <;> cases h0

/-- What is not below zero is read as an integer that is not below zero. -/
theorem toInteger_nonneg {x : Float} (h : ¬ x < 0) : 0 ≤ Scalar.toInteger x := by
  change 0 ≤ (Binary64.ofFloat x).toInteger
  rw [lt_iff, unpack_zero] at h
  rw [ofFloat_eq]
  generalize x.toModel.unpack = u at h ⊢
  cases u with
  | zero s =>
      have hzero : Binary64.signed (isNegative s) 0 = 0 := by cases s <;> rfl
      simp [ofUnpacked, Binary64.toInteger, hzero, Binary64.leastInteger, Binary64.greatestInteger]
  | infinity s =>
      cases s with
      | positive => decide
      | negative => exact absurd rfl h
  | notANumber => decide
  | finite s m e hm =>
      cases s with
      | positive =>
          simp only [ofUnpacked, isNegative, Binary64.toInteger, Binary64.signed,
            Binary64.leastInteger, Binary64.greatestInteger, Nat.pow_eq, Bool.false_eq_true, if_false]
          generalize (if 0 ≤ e then m * 2 ^ e.toNat else m / 2 ^ (-e).toNat) = n
          omega
      | negative => exact absurd rfl h

end Double

end Electrokinetics
