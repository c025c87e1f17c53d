/-
**Neutral elements.**

Zero added to a number and one multiplied with it leave it as it is, bit for bit where numbers are
doubles: nothing is rounded, a number that is none stays the only such number, and the one exception,
zero added to negative zero, is left out.  So a constant that has been folded once is not changed by
folding it again.

Main definitions:

* `NeutralScalar` — scalars with these laws.

Main results:

* `Double.pack_unpack` — a double is put together again from its parts;
* `instNeutralScalarFloat`, `instNeutralScalarOfExactScalar` — the instances.
-/

import Electrokinetics.Proofs.Scalar.Exact
import Electrokinetics.Proofs.Scalar.LargeInteger

set_option relaxedAutoImplicit false
set_option autoImplicit false

namespace Electrokinetics

/-- Scalars whose zero and one are neutral. -/
class NeutralScalar (K : Type) [Scalar K] : Prop where
  /-- Zero is a zero. -/
  isZero_zero : Scalar.isZero (Scalar.zero : K) = true
  /-- One is not. -/
  isZero_one : Scalar.isZero (Scalar.one : K) = false
  /-- One is a one. -/
  eq_one_one : Scalar.eq (Scalar.one : K) Scalar.one = true
  /-- Zero is neutral for sums, save for the sign of a zero. -/
  zero_add : ∀ {a : K}, Scalar.isZero a = false → Scalar.add Scalar.zero a = a
  /-- One is neutral for products. -/
  one_mul : ∀ a : K, Scalar.mul Scalar.one a = a

namespace Double

open Float.Model Float.Model.UnpackedFloat

/-! ### The parts of a double -/

theorem ofBitVec_toBitVec (v : BitVec 1) : (Sign.ofBitVec v).toBitVec = v := by
  revert v
  decide

/-- The bits of a double are its sign, its exponent and its mantissa. -/
theorem packComponents_unpack (b : BitVec Format.binary64.numBits) :
    packComponents Format.binary64 (Sign.ofBitVec (unpackSign b)) (unpackExponent b)
      (unpackMantissa b) = b := by
  have hlt : b.toNat < 2 ^ 64 := b.isLt
  have hsign := toNat_unpackSign b
  have hexponent := toNat_unpackExponent b
  have hmantissa := toNat_unpackMantissa b
  rw [packComponents, ofBitVec_toBitVec]
  refine BitVec.eq_of_toNat_eq ?_
  rw [BitVec.toNat_append, BitVec.toNat_append, ← Nat.shiftLeft_add_eq_or_of_lt (BitVec.isLt _),
    ← Nat.shiftLeft_add_eq_or_of_lt (BitVec.isLt _), Nat.shiftLeft_eq, Nat.shiftLeft_eq]
  change ((unpackSign b).toNat * 2 ^ 11 + (unpackExponent b).toNat) * 2 ^ 52 +
    (unpackMantissa b).toNat = b.toNat
  rw [hsign, hexponent, hmantissa]
  omega

/-- The mantissa of a very small double is too short to have its leading bit set. -/
theorem pack_small (s : Sign) {m : BitVec 52} (hpos : 0 < m.toNat) :
    UnpackedFloat.pack Format.binary64 (.finite s m.toNat (-1074) hpos) =
      packComponents Format.binary64 s 0#_ m := by
  have hlog : m.toNat.log2 < 52 := (Nat.log2_lt hpos.ne').2 m.isLt
  have hshort : ¬ m.toNat.log2 + 1 = Format.binary64.mantissaBits := by
    change ¬ _ + 1 = 53
    omega
  simp only [UnpackedFloat.pack]
  rw [if_neg (by decide), if_neg hshort, BitVec.ofNat_toNat, BitVec.setWidth_eq]

/-- All other doubles that are neither zero nor infinite have a leading bit, which is left out. -/
theorem pack_leading (s : Sign) {e : BitVec 11} {m : BitVec 52} (h0 : e.toNat ≠ 0)
    (h1 : e.toNat ≠ 2047) (hpos : 0 < (1#1 ++ m).toNat) :
    UnpackedFloat.pack Format.binary64 (.finite s (1#1 ++ m).toNat (e.toNat - 1075) hpos) =
      packComponents Format.binary64 s e m := by
  have hm := m.isLt
  have he := e.isLt
  have hnormal : Normal (1#1 ++ m).toNat (e.toNat - 1075 : ℤ) := by
    rw [toNat_one_append]
    exact ⟨by omega, by omega, by omega, by omega⟩
  have hmantissa : BitVec.ofNat 52 (1#1 ++ m).toNat = m := by
    refine BitVec.eq_of_toNat_eq ?_
    rw [toNat_one_append, BitVec.toNat_ofNat]
    omega
  rw [pack_normal s hnormal (b := e.toNat) (by omega), hmantissa, BitVec.ofNat_toNat,
    BitVec.setWidth_eq]

theorem pack_unpack_bits {b : BitVec Format.binary64.numBits} (hvalid : Format.binary64.Valid b) :
    UnpackedFloat.pack Format.binary64 (UnpackedFloat.unpack Format.binary64 b) = b := by
  have hones : unpackExponent b = -1#_ ↔ (unpackExponent b).toNat = 2047 := BitVec.toNat_inj.symm
  have hzeros : unpackExponent b = 0#_ ↔ (unpackExponent b).toNat = 0 := BitVec.toNat_inj.symm
  conv_rhs => rw [← packComponents_unpack b]
  unfold UnpackedFloat.unpack
  simp only
  by_cases h1 : unpackExponent b = -1#_
  · rw [if_pos h1]
    by_cases hm : unpackMantissa b = 0#_
    · rw [if_pos hm, h1, hm]
      rfl
    · rw [if_neg hm, packComponents_unpack]
      exact (hvalid.eq_packedNaN h1 hm).symm
  · rw [if_neg h1]
    by_cases h0 : unpackExponent b = 0#_
    · rw [if_pos h0]
      by_cases hm : unpackMantissa b = 0#_
      · rw [dif_pos hm, h0, hm]
        rfl
      · rw [dif_neg hm, h0]
        exact pack_small _ _
    · rw [if_neg h0]
      exact pack_leading _ (mt hzeros.2 h0) (mt hones.2 h1) _

/-- A double is put together again from its parts. -/
theorem pack_unpack (x : Float.Model) : Float.Model.pack x.unpack = x := by
  obtain ⟨bits, hvalid⟩ := x
  have hbits := congrArg UInt64.ofBitVec (pack_unpack_bits hvalid)
  simp only [Float.Model.pack, Float.Model.unpack, Float.Model.mk.injEq]
  exact hbits

/-! ### Zero and one -/

theorem unpack_ofInt_one :
    (Float.ofInt 1).toModel.unpack = .finite .positive (2 ^ 52) (-52) (Nat.two_pow_pos 52) := by
  rfl

/-- The mantissa and the exponent of a double need no rounding. -/
theorem fits_of_unpack {x : Float.Model} {s : Sign} {m : ℕ} {e : ℤ} {h : 0 < m}
    (hu : x.unpack = .finite s m e h) : Fits m e := by
  rcases normal_or_small_of_unpack hu with hnormal | ⟨hsmall, rfl⟩
  · exact hnormal.fits
  · exact fits_of_small h hsmall

theorem add_zero_left {x : Float} (h : Scalar.isZero x = false) : Float.ofInt 0 + x = x := by
  change (x == 0) = false at h
  rw [beq_iff, unpack_zero] at h
  have hsum : UnpackedFloat.add Format.binary64 (.zero .positive) x.toModel.unpack =
      x.toModel.unpack := by
    generalize x.toModel.unpack = u at h ⊢
    cases u with
    | zero s => cases s <;> cases h
    | _ => rfl
  refine congrArg Float.ofModel (?_ : Float.Model.pack _ = x.toModel)
  change Float.Model.pack (UnpackedFloat.add Format.binary64 (.zero .positive) _) = _
  rw [hsum, pack_unpack]

theorem mul_one_left (x : Float) : Float.ofInt 1 * x = x := by
  have hsign (s : Sign) : .positive * s = s := by cases s <;> rfl
  have hproduct : UnpackedFloat.mul Format.binary64
      (.finite .positive (2 ^ 52) (-52) (Nat.two_pow_pos 52)) x.toModel.unpack =
        x.toModel.unpack := by
    cases hu : x.toModel.unpack with
    | notANumber => rfl
    | infinity s => rw [UnpackedFloat.mul, hsign]
    | zero s => rw [UnpackedFloat.mul, hsign]
    | finite s m e hm =>
        have hround := (fits_of_unpack hu).roundWithAccuracy_eq 52 s
        rw [UnpackedFloat.mul, hsign, mul_comm, neg_add_eq_sub]
        exact hround
  refine congrArg Float.ofModel (?_ : Float.Model.pack _ = x.toModel)
  rw [unpack_ofInt_one, hproduct, pack_unpack]

end Double

instance instNeutralScalarFloat : NeutralScalar Float where
  isZero_zero := by decide
  isZero_one := by decide
  eq_one_one := by decide
  zero_add := Double.add_zero_left
  one_mul := Double.mul_one_left

instance instNeutralScalarOfExactScalar {K : Type} [OrderedField K] [Scalar K] [ExactScalar K] :
    NeutralScalar K where
  isZero_zero := Scalar.isZero_iff.2 Scalar.zero_eq
  isZero_one := by
    rw [← Bool.not_eq_true, Scalar.isZero_iff, Scalar.one_eq]
    exact one_ne_zero
  eq_one_one := Scalar.eq_iff.2 rfl
  zero_add _ := by rw [ExactScalar.add_eq, Scalar.zero_eq, zero_add]
  one_mul a := by rw [ExactScalar.mul_eq, Scalar.one_eq, one_mul]

end Electrokinetics
