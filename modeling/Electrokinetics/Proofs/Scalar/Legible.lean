/-
**Doubles can be told from their texts.**

The text of a double has all digits of its shortest decimal in front of the point and behind it, so
the decimal can be read again, and no two doubles have the same one.  Nor can a sign, an infinity or
a zero be mistaken for anything else.

Main definitions:

* `Spells` — the number that a text with at most one point stands for;
* `Binary64.IsNumber` — what doubles are, taken apart.

Main results:

* `Decimal.spells_positional` — all digits of a decimal are written;
* `Double.eq_of_text_eq` — different numbers have different texts;
* `instLegibleScalarFloat` — the instance.
-/

import Electrokinetics.Proofs.Scalar.Neutral
import Electrokinetics.Proofs.Scalar.Shortest
import Electrokinetics.Proofs.Text.Word

set_option relaxedAutoImplicit false
set_option autoImplicit false

namespace Electrokinetics

/-! ### Decimals in full -/

/-- Digits with an optional decimal part, and the number that they stand for. -/
inductive Spells : List Char → ℚ → Prop
  | whole {digits : List Char} (hne : digits ≠ []) (h : ∀ c ∈ digits, c.isDigit = true) :
      Spells digits (Nat.ofDigitChars 10 digits 0)
  | point {digits fraction : List Char} (hne : digits ≠ []) (h : ∀ c ∈ digits, c.isDigit = true)
      (hfraction : ∀ c ∈ fraction, c.isDigit = true) :
      Spells (digits ++ '.' :: fraction)
        (Nat.ofDigitChars 10 (digits ++ fraction) 0 / 10 ^ fraction.length)

namespace Spells

variable {text : List Char} {v w : ℚ}

theorem isDecimal (h : Spells text v) : IsDecimal text := by
  cases h with
  | whole hne h => exact .whole hne h
  | point hne h hfraction => exact .point hne h hfraction

/-- A text stands for one number. -/
theorem unique (h : Spells text v) (h' : Spells text w) : v = w := by
  have hpoint {digits fraction : List Char} : ¬ ∀ c ∈ digits ++ '.' :: fraction, c.isDigit = true :=
    fun h => absurd (h '.' (List.mem_append_right _ List.mem_cons_self)) (by decide)
  have hencloses {digits : List Char} (h : ∀ c ∈ digits, c.isDigit = true) :
      Encloses ['.'] digits :=
    .of_plain fun c hc => ⟨notMem_of_isDigit (h c hc) (by decide),
      notMem_of_isDigit (h c hc) (by decide), notMem_of_isDigit (h c hc) (by decide)⟩
  have hends (fraction : List Char) : Ends ['.'] ('.' :: fraction) := ends_cons (by decide)
  cases h with
  | whole hne h =>
      generalize htext : text = text' at h'
      cases h' with
      | whole hne' h' => rfl
      | point hne' h' hfraction' => exact absurd (htext ▸ h) hpoint
  | @point digits fraction hne h hfraction =>
      generalize htext : digits ++ '.' :: fraction = text' at h'
      cases h' with
      | whole hne' h' => exact absurd (htext ▸ h') hpoint
      | point hne' h' hfraction' =>
          obtain ⟨rfl, hrest⟩ :=
            (hencloses h).cut (hencloses h') (hends _) (hends _) htext
          rw [(List.cons.inj hrest).2]

/-- The digits behind the point are as many as the exponent says. -/
theorem of_exponent {digits fraction : List Char} {n k : ℕ} (hne : digits ≠ [])
    (h : ∀ c ∈ digits, c.isDigit = true) (hfraction : ∀ c ∈ fraction, c.isDigit = true)
    (hvalue : Nat.ofDigitChars 10 (digits ++ fraction) 0 = n) (hlength : fraction.length = k) :
    Spells (digits ++ '.' :: fraction) (n * 10 ^ (-k : ℤ)) := by
  rw [zpow_neg, zpow_natCast, ← div_eq_mul_inv, ← hvalue, ← hlength]
  exact .point hne h hfraction

end Spells

/-- All digits of a decimal are written. -/
theorem Decimal.spells_positional (d : Decimal) : Spells d.positional.toList d.value := by
  obtain ⟨n, exponent⟩ := d
  have hne : Nat.toDigits 10 n ≠ [] := Nat.toDigits_ne_nil
  have hdigit : ∀ c ∈ Nat.toDigits 10 n, c.isDigit = true :=
    fun c hc => Nat.isDigit_of_mem_toDigits (by decide) (by decide) hc
  have hzeros (k : ℕ) : ∀ c ∈ List.replicate k '0', c.isDigit = true := by
    intro c hc
    rw [List.eq_of_mem_replicate hc]
    rfl
  have hvalue : Nat.ofDigitChars 10 (Nat.toDigits 10 n) 0 = n := Nat.ofDigitChars_ten_toDigits
  unfold Decimal.positional Decimal.value
  simp only
  generalize Nat.toDigits 10 n = digits at hne hdigit hvalue
  split
  · rename_i hexponent
    obtain ⟨k, rfl⟩ := Int.eq_ofNat_of_zero_le hexponent
    have hall : (n * 10 ^ (k : ℤ) : ℚ) =
        Nat.ofDigitChars 10 (digits ++ List.replicate k '0') 0 := by
      rw [Nat.ofDigitChars_append, hvalue, Nat.ofDigitChars_replicate_zero, zpow_natCast]
      push_cast
      ring
    rw [String.toList_ofList, Int.toNat_natCast, hall]
    exact .whole (List.append_ne_nil_of_left_ne_nil hne _)
      (List.forall_mem_append.2 ⟨hdigit, hzeros k⟩)
  · rename_i hnegative
    obtain ⟨k, rfl⟩ : ∃ k : ℕ, exponent = -k := ⟨(-exponent).toNat, by omega⟩
    rw [neg_neg, Int.toNat_natCast]
    split
    · rename_i hplaces
      rw [String.toList_ofList]
      refine .of_exponent ?_ (fun c hc => hdigit c (List.mem_of_mem_take hc))
        (fun c hc => hdigit c (List.mem_of_mem_drop hc)) ?_ ?_
      · intro hnil
        rcases List.take_eq_nil_iff.1 hnil with hzero | hnil
        · omega
        · exact hne hnil
      · rw [List.take_append_drop, hvalue]
      · rw [List.length_drop]
        omega
    · have hleading : Nat.ofDigitChars 10 ['0'] 0 = 0 := rfl
      rw [String.toList_ofList]
      change Spells (['0'] ++ '.' :: (List.replicate _ '0' ++ digits)) _
      refine .of_exponent (List.cons_ne_nil _ _) (List.forall_mem_singleton.2 rfl)
        (List.forall_mem_append.2 ⟨hzeros _, hdigit⟩) ?_ ?_
      · rw [Nat.ofDigitChars_append, Nat.ofDigitChars_append, hleading,
          Nat.ofDigitChars_replicate_zero, mul_zero, hvalue]
      · rw [List.length_append, List.length_replicate]
        omega

namespace Binary64

/-- What a double other than a value that is not a number is, taken apart. -/
inductive IsNumber : Binary64 → Prop
  | infinite (negative : Bool) : IsNumber (.infinite negative)
  | zero (negative : Bool) : IsNumber (.finite negative 0 leastExponent)
  | place (negative : Bool) {m : ℕ} {e : ℤ} (h : IsPlace m e) : IsNumber (.finite negative m e)

/-- Whether the text has a minus sign. -/
def hasMinus : Binary64 → Bool
  | .finite negative _ _ => negative
  | .infinite negative => negative
  | .notANumber => false

/-- The text without the sign. -/
def magnitude : Binary64 → String
  | .finite _ 0 _ => "0"
  | .finite _ m e => (Shortest.decimal (interval m e)).positional
  | .infinite _ => "inf"
  | .notANumber => "NaN"

variable {b b' : Binary64} {m : ℕ} {e : ℤ}

theorem spells_zero : Spells "0".toList 0 := by
  have htext : "0".toList = ['0'] := by decide
  have hzero : ((Nat.ofDigitChars 10 ['0'] 0 : ℕ) : ℚ) = 0 := Nat.cast_eq_zero.2 rfl
  rw [htext, ← hzero]
  exact .whole (List.cons_ne_nil _ _) (List.forall_mem_singleton.2 rfl)

theorem IsPlace.spells_magnitude (h : IsPlace m e) (negative : Bool) :
    Spells (magnitude (.finite negative m e)).toList (Shortest.decimal (interval m e)).value := by
  obtain ⟨k, rfl⟩ := Nat.exists_eq_succ_of_ne_zero h.pos.ne'
  exact Decimal.spells_positional _

theorem IsNumber.isMagnitude (h : b.IsNumber) : Magnitude b.magnitude.toList := by
  cases h with
  | infinite negative =>
      have htext : "inf".toList = ['i', 'n', 'f'] := by decide
      change Magnitude "inf".toList
      rw [htext]
      exact .infinite
  | zero negative => exact .finite spells_zero.isDecimal
  | place negative h => exact .finite (h.spells_magnitude negative).isDecimal

theorem IsNumber.eq_of_magnitude (h : b.IsNumber) (h' : b'.IsNumber)
    (hsign : b.hasMinus = b'.hasMinus) (htext : b.magnitude = b'.magnitude) : b = b' := by
  have hinf {text : String} {v : ℚ} (h : Spells text.toList v) : text ≠ "inf" := by
    rintro rfl
    obtain ⟨c, hc, hdigit⟩ := h.isDecimal.head_isDigit
    obtain rfl := Option.some.inj hc
    exact absurd hdigit (by decide)
  have hzero {m : ℕ} {e : ℤ} (h : IsPlace m e) (negative : Bool) :
      magnitude (.finite negative m e) ≠ "0" := by
    intro heq
    have hspells := h.spells_magnitude negative
    rw [heq] at hspells
    have hpos := h.pos_of_contains (Shortest.contains_decimal h.resolves)
    exact hpos.ne (spells_zero.unique hspells)
  cases h with
  | infinite negative =>
      cases h' with
      | infinite negative' => exact congrArg _ hsign
      | zero negative' => exact absurd htext.symm (hinf spells_zero)
      | place negative' h' => exact absurd htext.symm (hinf (h'.spells_magnitude negative'))
  | zero negative =>
      cases h' with
      | infinite negative' => exact absurd htext (hinf spells_zero)
      | zero negative' => exact congrArg (finite · 0 leastExponent) hsign
      | place negative' h' => exact absurd htext.symm (hzero h' negative')
  | place negative h =>
      cases h' with
      | infinite negative' => exact absurd htext (hinf (h.spells_magnitude negative))
      | zero negative' => exact absurd htext (hzero h negative)
      | place negative' h' =>
          have hspells := h.spells_magnitude negative
          rw [htext] at hspells
          have hvalue := hspells.unique (h'.spells_magnitude negative')
          have hcontains := Shortest.contains_decimal h.resolves
          rw [hvalue] at hcontains
          obtain ⟨rfl, rfl⟩ :=
            h.eq_of_contains h' hcontains (Shortest.contains_decimal h'.resolves)
          exact congrArg (finite · _ _) hsign

end Binary64

namespace Double

open Float.Model Float.Model.UnpackedFloat

/-- What an unpacked double is determines it. -/
theorem ofUnpacked_injective : Function.Injective ofUnpacked := by
  have hsign : Function.Injective isNegative := by
    intro s t h
    cases s <;> cases t <;> first | rfl | cases h
  have hzero {s t : Sign} {m : ℕ} {e : ℤ} (hm : 0 < m) :
      ofUnpacked (.zero s) ≠ ofUnpacked (.finite t m e hm) := by
    intro h
    obtain rfl := (Binary64.finite.inj h).2.1
    exact absurd hm (lt_irrefl 0)
  intro u v h
  cases u with
  | notANumber =>
      cases v with
      | notANumber => rfl
      | _ => cases h
  | infinity s =>
      cases v with
      | infinity t => exact congrArg infinity (hsign (Binary64.infinite.inj h))
      | _ => cases h
  | zero s =>
      cases v with
      | zero t => exact congrArg zero (hsign (Binary64.finite.inj h).1)
      | finite t m e hm => exact absurd h (hzero hm)
      | _ => cases h
  | finite s m e hm =>
      cases v with
      | zero t => exact absurd h.symm (hzero hm)
      | finite t m' e' hm' =>
          obtain ⟨hsigns, rfl, rfl⟩ := Binary64.finite.inj h
          rw [hsign hsigns]
      | _ => cases h

/-- A double is put together again from what it is, taken apart. -/
theorem ofFloat_injective : Function.Injective Binary64.ofFloat := by
  intro x y h
  rw [ofFloat_eq, ofFloat_eq] at h
  have hmodel : x.toModel = y.toModel := by
    rw [← pack_unpack x.toModel, ofUnpacked_injective h, pack_unpack]
  exact congrArg Float.ofModel hmodel

/-- A double that equals itself is a number. -/
theorem isNumber_of_beq {x : Float} (h : (x == x) = true) : (Binary64.ofFloat x).IsNumber := by
  rw [beq_iff] at h
  rw [ofFloat_eq]
  cases hu : x.toModel.unpack with
  | notANumber =>
      rw [hu] at h
      cases h
  | infinity s => exact .infinite _
  | zero s => exact .zero _
  | finite s m e hm =>
      refine .place _ ?_
      rcases normal_or_small_of_unpack hu with hnormal | ⟨hsmall, rfl⟩
      · exact ⟨hm, hnormal.lt, hnormal.minimal, fun _ => hnormal.le⟩
      · exact ⟨hm, hsmall.trans (by decide), le_rfl, fun h => absurd h (lt_irrefl _)⟩

/-- The text is the magnitude with an optional sign in front. -/
theorem toList_text {x : Float} (h : (Binary64.ofFloat x).IsNumber) :
    (text x).toList =
      if (Binary64.ofFloat x).hasMinus then '-' :: (Binary64.ofFloat x).magnitude.toList
      else (Binary64.ofFloat x).magnitude.toList := by
  unfold text
  generalize Binary64.ofFloat x = b at h ⊢
  have hsign (negative : Bool) (digits : String) :
      (if negative then "-" ++ digits else digits).toList =
        if negative then '-' :: digits.toList else digits.toList := by
    cases negative with
    | false => rfl
    | true => exact String.toList_append
  cases h with
  | infinite negative => exact hsign _ _
  | zero negative => exact hsign _ _
  | @place negative m e h =>
      obtain ⟨k, rfl⟩ := Nat.exists_eq_succ_of_ne_zero h.pos.ne'
      exact hsign _ _

/-- Different numbers have different texts. -/
theorem eq_of_text_eq {x y : Float} (hx : (Binary64.ofFloat x).IsNumber)
    (hy : (Binary64.ofFloat y).IsNumber) (h : text x = text y) : x = y := by
  have htext := congrArg String.toList h
  rw [toList_text hx, toList_text hy] at htext
  obtain ⟨hsign, hmagnitude⟩ := hx.isMagnitude.signed_inj hy.isMagnitude htext
  exact ofFloat_injective (hx.eq_of_magnitude hy hsign (String.toList_inj.1 hmagnitude))

end Double

instance instLegibleScalarFloat : LegibleScalar Float where
  numeral_text {x} h := by
    have hnumber := Double.isNumber_of_beq h
    change Numeral (Double.text x).toList
    rw [Double.toList_text hnumber]
    split
    · exact .negative hnumber.isMagnitude
    · exact .unsigned hnumber.isMagnitude
  text_inj hx hy h := Double.eq_of_text_eq (Double.isNumber_of_beq hx) (Double.isNumber_of_beq hy) h

end Electrokinetics
