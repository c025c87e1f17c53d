/-
**The double that a remainder is.**

The remainder of an integer by an extent has the integer remainder as its value.  A value other than
zero belongs to one double only, and of the two zeros the remainder takes the one with the sign of the
dividend: a negative multiple of the extent leaves negative zero, which no integer is made into.

Main results:

* `Double.HasInteger.unique` — an integer other than zero is the value of one double;
* `Double.remainder_ofInt` — the remainder, bit for bit.
-/

import Electrokinetics.Proofs.Scalar.Neutral

set_option relaxedAutoImplicit false
set_option autoImplicit false

namespace Electrokinetics

namespace Double

open Float.Model Float.Model.UnpackedFloat

/-! ### Doubles of one value -/

theorem eq_of_unpack {x y : Float} (h : x.toModel.unpack = y.toModel.unpack) : x = y := by
  have hmodel : x.toModel = y.toModel := by rw [← pack_unpack x.toModel, h, pack_unpack]
  exact congrArg Float.ofModel hmodel

/-- An integer other than zero is the value of one double. -/
theorem HasInteger.unique {u v : UnpackedFloat} {n : ℤ} (hu : HasInteger u n) (hv : HasInteger v n)
    (h0 : n ≠ 0) : u = v := by
  cases hu with
  | zero s => exact absurd rfl h0
  | @finite s k M E hN hk =>
      generalize hz : s.apply k = z at hv
      cases hv with
      | zero t => exact absurd hz h0
      | @finite t l M' E' hN' hl =>
          have hkpos := hk.pos hN.pos
          have hlpos := hl.pos hN'.pos
          obtain ⟨rfl, rfl⟩ : s = t ∧ k = l := by
            cases s <;> cases t <;> simp only [Sign.apply] at hz <;> simp <;> omega
          -- Both are what the integer is rounded to.
          exact (round_eq s hN hk).symm.trans (round_eq s hN' hl)

/-! ### Multiples of the modulus -/

theorem HasInteger.sameValue {u : UnpackedFloat} {n : ℤ} (h : HasInteger u n) {negative : Bool}
    {M : ℕ} {E : ℤ} (hu : ofUnpacked u = .finite negative M E) : SameValue n.natAbs 0 M E := by
  cases h with
  | zero s =>
      cases hu
      exact sameValue_iff.2 (by simp)
  | @finite s k M E hN hk =>
      have habs : (s.apply k).natAbs = k := by cases s <;> simp [Sign.apply]
      cases hu
      rwa [habs]

/-- The remainder of a multiple of the modulus is the zero with the sign of the dividend. -/
theorem toFloat_truncatedRemainder_of_dvd {u v : UnpackedFloat} {n m : ℤ} (hu : HasInteger u n)
    (hv : HasInteger v m) (h0 : m ≠ 0) (hdvd : m ∣ n) {negative negative' : Bool} {M M' : ℕ}
    {E E' : ℤ} (hM : ofUnpacked u = .finite negative M E)
    (hM' : ofUnpacked v = .finite negative' M' E') :
    (Binary64.truncatedRemainder (ofUnpacked u) (ofUnpacked v)).toFloat =
      .ofModel (.pack (.zero (Binary64.sign negative))) := by
  have hA := (hu.sameValue hM).align (min_le_left E E')
  have hB := (hv.sameValue hM').align (min_le_right E E')
  have hmod : n.natAbs % m.natAbs = 0 := Nat.mod_eq_zero_of_dvd (Int.natAbs_dvd_natAbs.2 hdvd)
  have hzero := (hA.mod hB).eq_zero.1 hmod
  have hM0 : M' ≠ 0 := mt (hv.sameValue hM').eq_zero.2 (Int.natAbs_ne_zero.2 h0)
  rw [hM, hM']
  simp only [Binary64.truncatedRemainder, Nat.pow_eq, hM0, if_false, hzero]
  rw [Binary64.toFloat, Binary64.finiteFloat, round_zero]

/-- The sign of a double made from an integer: there is a negative zero, but it is not made. -/
theorem exists_ofUnpacked_ofInt {n : ℤ} (h : n.natAbs ≤ exactBound) :
    ∃ M E, ofUnpacked (Float.ofInt n).toModel.unpack = .finite (decide (n < 0)) M E := by
  rcases eq_or_ne n 0 with rfl | h0
  · exact ⟨0, Binary64.leastExponent, rfl⟩
  · have hn := hasInteger_ofInt h
    generalize (Float.ofInt n).toModel.unpack = u at hn
    cases hn with
    | zero s => exact absurd rfl h0
    | @finite s k M E hN hk =>
        refine ⟨M, E, ?_⟩
        have hpos := hk.pos hN.pos
        have hsign : isNegative s = decide (s.apply k < 0) := by
          cases s with
          | negative => exact (decide_eq_true (neg_neg_of_pos (Int.natCast_pos.2 hpos))).symm
          | positive => exact (decide_eq_false (Int.not_lt.2 (Int.natCast_nonneg k))).symm
        rw [ofUnpacked, hsign]

/-! ### The remainder -/

/-- The remainder of an integer by an extent is the double of the integer remainder, except that it is
negative zero for a negative multiple of the extent. -/
theorem remainder_ofInt {n : ℤ} {m : ℕ} (hn : n.natAbs ≤ exactBound) (h0 : 0 < m)
    (hm : m < extentBound) :
    remainder (Float.ofInt n) (Float.ofInt m) =
      if n < 0 ∧ (m : ℤ) ∣ n then -Float.ofInt 0 else Float.ofInt (n % m) := by
  have hm0 : (m : ℤ) ≠ 0 := Int.natCast_ne_zero.2 h0.ne'
  have hx := hasInteger_ofInt hn
  have hy := hasInteger_extent hm
  by_cases hdvd : (m : ℤ) ∣ n
  · have hymax : (m : ℤ).natAbs ≤ exactBound := hm.le.trans (by decide)
    obtain ⟨M, E, hM⟩ := exists_ofUnpacked_ofInt hn
    obtain ⟨M', E', hM'⟩ := exists_ofUnpacked_ofInt hymax
    have hzero := toFloat_truncatedRemainder_of_dvd hx hy hm0 hdvd hM hM'
    have hnonneg : ¬ Float.ofModel (.pack (.zero (Binary64.sign (decide (n < 0))))) < 0 := by
      cases decide (n < 0) <;> decide
    have hself : remainder (Float.ofInt n) (Float.ofInt m) =
        .ofModel (.pack (.zero (Binary64.sign (decide (n < 0))))) := by
      unfold remainder
      rw [ofFloat_eq, ofFloat_eq, hzero]
      exact if_neg hnonneg
    rw [hself, Int.emod_eq_zero_of_dvd hdvd]
    by_cases hneg : n < 0
    · rw [if_pos ⟨hneg, hdvd⟩, decide_eq_true hneg]
      rfl
    · rw [if_neg fun h => hneg h.1, decide_eq_false hneg]
      rfl
  · rw [if_neg fun h => hdvd h.2]
    have hsmall : (n % m).natAbs ≤ exactBound := by
      have hnonneg := Int.emod_nonneg n hm0
      have hbelow := Int.emod_lt_of_pos n (Int.natCast_pos.2 h0)
      simp only [exactBound, extentBound] at hm ⊢
      omega
    exact eq_of_unpack ((hasInteger_remainder hx hy h0 hm).unique (hasInteger_ofInt hsmall)
      (mt Int.dvd_of_emod_eq_zero hdvd))

end Double

end Electrokinetics
