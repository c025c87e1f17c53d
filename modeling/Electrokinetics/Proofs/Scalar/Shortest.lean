/-
**Shortest decimals read back.**

A decimal reads back if it lies in the interval of the reals that round to a value.  Whatever grid
the search ends on, its decimal does: a neighbour is taken only if it passes this test, and on the
grid of eighteen digits, where nothing is tested any more, the distance to the value is less than a
quarter of the last place.  The intervals of different doubles have no number in common, since a
bound that two of them share belongs to the one with the even mantissa only.  So a shortest decimal
determines what it was made from.

Main definitions:

* `Decimal.value` — the number that a decimal stands for;
* `Rounding.Contains` — the rational numbers that round to a value;
* `Binary64.IsPlace`, `Binary64.interval` — the mantissas and exponents of positive doubles,
  and their intervals.

Main results:

* `Shortest.contains_decimal` — the shortest decimal reads back;
* `Binary64.IsPlace.eq_of_contains` — no number reads back as two doubles.
-/

import Electrokinetics.Scalar.Binary64
import Electrokinetics.Scalar.Shortest
import Mathlib.Algebra.Order.Field.Power
import Mathlib.Algebra.Order.Field.Rat
import Mathlib.Data.Nat.Cast.Order.Field
import Mathlib.Tactic.Linarith
import Mathlib.Tactic.NormNum
import Mathlib.Tactic.Positivity
import Mathlib.Tactic.Ring

set_option relaxedAutoImplicit false
set_option autoImplicit false

namespace Electrokinetics

/-- The number that a decimal stands for. -/
def Decimal.value (d : Decimal) : ℚ := d.digits * 10 ^ d.exponent

namespace Rounding

/-- The unit that an interval is counted in. -/
def unit (r : Rounding) : ℚ := 2 ^ r.scale

/-- A rational number lies in the interval. -/
def Contains (r : Rounding) (v : ℚ) : Prop :=
  if r.closed then r.low * r.unit ≤ v ∧ v ≤ r.high * r.unit
  else r.low * r.unit < v ∧ v < r.high * r.unit

variable {r : Rounding} {v : ℚ}

theorem unit_pos (r : Rounding) : 0 < r.unit := zpow_pos two_pos _

theorem contains_of_lt (hlow : r.low * r.unit < v) (hhigh : v < r.high * r.unit) :
    r.Contains v := by
  unfold Contains
  split
  · exact ⟨hlow.le, hhigh.le⟩
  · exact ⟨hlow, hhigh⟩

theorem Contains.le (h : r.Contains v) : r.low * r.unit ≤ v ∧ v ≤ r.high * r.unit := by
  unfold Contains at h
  split at h
  · exact h
  · exact ⟨h.1.le, h.2.le⟩

theorem Contains.lt_of_open (h : r.Contains v) (hopen : r.closed = false) :
    r.low * r.unit < v ∧ v < r.high * r.unit := by
  rwa [Contains, hopen] at h

end Rounding

namespace Shortest

variable {r : Rounding}

/-! ### A common scale -/

theorem pow_toNat {a : ℚ} (ha : a ≠ 0) (k : ℤ) : a ^ k.toNat = a ^ k * a ^ (-k).toNat := by
  rw [← zpow_natCast, ← zpow_natCast, ← zpow_add₀ ha]
  congr 1
  omega

/-- The two factors are the unit of the grid and that of the interval, multiplied by the same
number. -/
theorem commonScale_eq (r : Rounding) (exponent : ℤ) : ∃ c : ℚ, 0 < c ∧
    ((commonScale r exponent).1 : ℚ) = 10 ^ exponent * c ∧
    ((commonScale r exponent).2 : ℚ) = r.unit * c := by
  refine ⟨10 ^ (-exponent).toNat * 2 ^ (-r.scale).toNat, by positivity, ?_, ?_⟩
  · simp only [commonScale, Nat.pow_eq]
    push_cast
    rw [pow_toNat (by norm_num) exponent]
    ring
  · simp only [commonScale, Nat.pow_eq, Rounding.unit]
    push_cast
    rw [pow_toNat two_ne_zero r.scale]
    ring

/-- Comparisons on the common scale are comparisons of rational numbers. -/
theorem mul_bound_le_iff (r : Rounding) (exponent : ℤ) (a d : ℕ) :
    a * (commonScale r exponent).2 ≤ d * (commonScale r exponent).1 ↔
      (a * r.unit : ℚ) ≤ d * 10 ^ exponent := by
  obtain ⟨c, hc, hpoint, hbound⟩ := commonScale_eq r exponent
  rw [← Nat.cast_le (α := ℚ), Nat.cast_mul, Nat.cast_mul, hpoint, hbound, ← mul_assoc, ← mul_assoc,
    mul_le_mul_iff_of_pos_right hc]

theorem mul_point_le_iff (r : Rounding) (exponent : ℤ) (a d : ℕ) :
    d * (commonScale r exponent).1 ≤ a * (commonScale r exponent).2 ↔
      (d * 10 ^ exponent : ℚ) ≤ a * r.unit := by
  obtain ⟨c, hc, hpoint, hbound⟩ := commonScale_eq r exponent
  rw [← Nat.cast_le (α := ℚ), Nat.cast_mul, Nat.cast_mul, hpoint, hbound, ← mul_assoc, ← mul_assoc,
    mul_le_mul_iff_of_pos_right hc]

/-- The test asks whether a decimal lies in the interval. -/
theorem readsBack_iff {d : Decimal} : readsBack r d = true ↔ r.Contains d.value := by
  have hlow := mul_bound_le_iff r d.exponent r.low d.digits
  have hlow' := mul_point_le_iff r d.exponent r.low d.digits
  have hhigh := mul_point_le_iff r d.exponent r.high d.digits
  have hhigh' := mul_bound_le_iff r d.exponent r.high d.digits
  unfold readsBack Rounding.Contains Decimal.value
  simp only
  split
  · rw [Bool.and_eq_true, decide_eq_true_iff, decide_eq_true_iff, hlow, hhigh]
  · rw [Bool.and_eq_true, decide_eq_true_iff, decide_eq_true_iff, ← not_le, hlow', ← not_le, hhigh',
      not_le, not_le]

/-- What a grid offers reads back. -/
theorem contains_onGrid {exponent : ℤ} {d : Decimal} (h : onGrid r exponent = some d) :
    r.Contains d.value := by
  refine readsBack_iff.1 ?_
  unfold onGrid at h
  simp only at h
  split at h
  · rename_i hbelow
    split at h <;> obtain rfl := Option.some.inj h
    · rename_i habove
      exact (Bool.and_eq_true_iff.1 habove).1
    · exact hbelow
  · split at h
    · rename_i habove
      obtain rfl := Option.some.inj h
      exact habove
    · cases h

/-! ### The finest grid -/

theorem lt_pow_digitCount (n : ℕ) : n < 10 ^ digitCount n := by
  unfold digitCount
  split
  · rename_i hn
    rw [hn]
    exact Nat.one_pos
  · exact (Nat.length_toDigits_le_iff (by decide) Nat.length_toDigits_pos).1 le_rfl

theorem pow_digitCount_le {n : ℕ} (hn : 0 < n) : 10 ^ (digitCount n - 1) ≤ n := by
  rw [digitCount, if_neg hn.ne']
  rcases Nat.eq_zero_or_pos ((Nat.toDigits 10 n).length - 1) with hone | hmore
  · rw [hone]
    exact hn
  · by_contra hlt
    have hlength := (Nat.length_toDigits_le_iff (by decide) hmore).2 (not_le.1 hlt)
    omega

/-- The leading digit of a quotient from one on. -/
theorem zpow_digitCount_le {num den : ℕ} (hden : 0 < den) (hle : den ≤ num) :
    (10 : ℚ) ^ ((digitCount (num / den) : ℤ) - 1) ≤ num / den := by
  have hq : 0 < num / den := Nat.div_pos hle hden
  have hcount : digitCount (num / den) ≠ 0 := by
    intro hzero
    have hlt := lt_pow_digitCount (num / den)
    rw [hzero, pow_zero] at hlt
    omega
  have hexponent : (digitCount (num / den) : ℤ) - 1 = (digitCount (num / den) - 1 : ℕ) := by omega
  have hpow : ((10 ^ (digitCount (num / den) - 1) : ℕ) : ℚ) ≤ (num / den : ℕ) :=
    Nat.cast_le.2 (pow_digitCount_le hq)
  rw [hexponent, zpow_natCast]
  push_cast at hpow
  exact hpow.trans Nat.cast_div_le

/-- The leading digit of a quotient below one: it is found in the inverse, rounded up. -/
theorem zpow_neg_digitCount_le {num den : ℕ} (hnum : 0 < num) (hlt : num < den) :
    (10 : ℚ) ^ (-(digitCount ((den + num - 1) / num - 1) : ℤ)) ≤ num / den := by
  have hdiv := Nat.lt_mul_div_succ (den + num - 1) hnum
  have hpos : 0 < (den + num - 1) / num := Nat.div_pos (by omega) hnum
  have hcount := lt_pow_digitCount ((den + num - 1) / num - 1)
  generalize digitCount ((den + num - 1) / num - 1) = k at hcount ⊢
  generalize (den + num - 1) / num = q at hdiv hpos hcount
  have hden : den ≤ num * q := by
    rw [Nat.mul_succ] at hdiv
    omega
  have hle : den ≤ 10 ^ k * num := by
    rw [mul_comm]
    exact hden.trans (Nat.mul_le_mul_left num (by omega))
  have hrat : (den : ℚ) ≤ 10 ^ k * num := by exact_mod_cast hle
  have hdenpos : (0 : ℚ) < den := Nat.cast_pos.2 (by omega)
  rw [zpow_neg, zpow_natCast, le_div_iff₀ hdenpos, inv_mul_le_iff₀ (by positivity)]
  exact hrat

/-- The leading digit is not too far to the left. -/
theorem zpow_leadingExponent_le (h : 0 < r.value) :
    (10 : ℚ) ^ leadingExponent r ≤ r.value * r.unit := by
  have hunit : r.unit = (2 : ℚ) ^ r.scale.toNat / 2 ^ (-r.scale).toNat := by
    rw [pow_toNat two_ne_zero r.scale, Rounding.unit]
    exact (mul_div_cancel_right₀ _ (by positivity)).symm
  have hquotient : (r.value * r.unit : ℚ) =
      (r.value * 2 ^ r.scale.toNat : ℕ) / (2 ^ (-r.scale).toNat : ℕ) := by
    rw [hunit]
    push_cast
    ring
  rw [hquotient]
  unfold leadingExponent
  simp only [Nat.pow_eq]
  split
  · exact zpow_digitCount_le (Nat.two_pow_pos _) ‹_›
  · exact zpow_neg_digitCount_le (Nat.mul_pos h (Nat.two_pow_pos _)) (not_le.1 ‹_›)

theorem value_floorOn (r : Rounding) (exponent : ℤ) :
    (floorOn r exponent).value ≤ r.value * r.unit ∧
      r.value * r.unit < (floorOn r exponent).value + 10 ^ exponent := by
  obtain ⟨c, hc, hpoint, -⟩ := commonScale_eq r exponent
  have hpos : 0 < (commonScale r exponent).1 := by
    rw [← Nat.cast_pos (α := ℚ), hpoint]
    positivity
  have hle : (floorOn r exponent).digits * (commonScale r exponent).1 ≤
      r.value * (commonScale r exponent).2 := Nat.div_mul_le_self _ _
  have hlt : ¬ ((floorOn r exponent).digits + 1) * (commonScale r exponent).1 ≤
      r.value * (commonScale r exponent).2 := by
    rw [not_le, mul_comm (_ + 1)]
    exact Nat.lt_mul_div_succ _ hpos
  rw [mul_point_le_iff] at hle hlt
  push_cast at hlt
  refine ⟨hle, ?_⟩
  rw [not_le, add_one_mul] at hlt
  exact hlt

/-- The distance of a value to the bounds of its interval: at least a quarter of the last place, and
not less than one part in `10 ^ 17`. -/
structure Resolves (r : Rounding) : Prop where
  low : r.low + 1 ≤ r.value
  high : r.value < r.high
  le : r.value ≤ 10 ^ maxDigits

/-- On the finest grid the value is hit up to less than a quarter of the last place. -/
theorem contains_floorOn (h : Resolves r) :
    r.Contains (floorOn r (leadingExponent r - maxDigits)).value := by
  have hunit := r.unit_pos
  have hleading := zpow_leadingExponent_le (Nat.zero_lt_of_lt h.low)
  have hlow : (r.low + 1 : ℚ) ≤ r.value := by exact_mod_cast h.low
  have hhigh : (r.value : ℚ) < r.high := by exact_mod_cast h.high
  have hvalue : (r.value : ℚ) ≤ 10 ^ maxDigits := by exact_mod_cast h.le
  obtain ⟨hfloor, hnext⟩ := value_floorOn r (leadingExponent r - maxDigits)
  -- The grid is at least as fine as the unit of the interval.
  have hgrid : (10 : ℚ) ^ (leadingExponent r - maxDigits) ≤ r.unit := by
    rw [zpow_sub₀ (by norm_num), zpow_natCast, div_le_iff₀ (by positivity), mul_comm]
    exact hleading.trans (mul_le_mul_of_nonneg_right hvalue hunit.le)
  have hlowunit := mul_le_mul_of_nonneg_right hlow hunit.le
  have hhighunit := mul_lt_mul_of_pos_right hhigh hunit
  rw [add_one_mul] at hlowunit
  exact Rounding.contains_of_lt (by linarith only [hlowunit, hnext, hgrid])
    (by linarith only [hhighunit, hfloor])

/-! ### The shortest decimal -/

/-- Trailing zeros are moved into the exponent. -/
theorem value_trimmed (d : Decimal) (fuel : ℕ) : (trimmed d fuel).value = d.value := by
  induction fuel generalizing d with
  | zero => rfl
  | succ fuel ih =>
      unfold trimmed
      split
      · rename_i hzero
        have hdigits : (d.digits : ℚ) = (d.digits / 10 : ℕ) * 10 := by
          exact_mod_cast (Nat.div_mul_cancel (Nat.dvd_of_mod_eq_zero hzero)).symm
        rw [ih, Decimal.value, Decimal.value, zpow_add_one₀ (by norm_num), hdigits]
        ring
      · rfl

/-- The shortest decimal reads back. -/
theorem contains_decimal (h : Resolves r) : r.Contains (decimal r).value := by
  unfold decimal
  simp only
  rw [value_trimmed]
  generalize hfound : (List.range maxDigits).findSome?
    (fun n : ℕ => onGrid r (leadingExponent r - n)) = found
  cases found with
  | none => exact contains_floorOn h
  | some d =>
      obtain ⟨n, -, hn⟩ := List.exists_of_findSome?_eq_some hfound
      exact contains_onGrid hn

end Shortest

/-! ### Intervals of doubles -/

namespace Rounding

/-- Intervals that at most touch, and do not do so at a bound that belongs to both. -/
theorem lt_of_contains {r r' : Rounding} {v w : ℚ} (hv : r.Contains v) (hw : r'.Contains w)
    (hle : r.high * r.unit ≤ r'.low * r'.unit)
    (hopen : r.high * r.unit < r'.low * r'.unit ∨ r.closed = false ∨ r'.closed = false) :
    v < w := by
  rcases hopen with hlt | hopen | hopen
  · exact hv.le.2.trans_lt (hlt.trans_le hw.le.1)
  · exact (hv.lt_of_open hopen).2.trans_le (hle.trans hw.le.1)
  · exact hv.le.2.trans_lt (hle.trans_lt (hw.lt_of_open hopen).1)

end Rounding

namespace Binary64

/-- A mantissa and an exponent of a positive double: the mantissa has its leading bit set, unless
the exponent is the least one. -/
structure IsPlace (mantissa : ℕ) (exponent : ℤ) : Prop where
  pos : 0 < mantissa
  lt : mantissa < 2 ^ 53
  least : leastExponent ≤ exponent
  leading : leastExponent < exponent → 2 ^ 52 ≤ mantissa

/-- The interval of a positive double, which is narrow where the places get finer. -/
def interval (mantissa : ℕ) (exponent : ℤ) : Rounding :=
  .interval mantissa exponent (mantissa == Nat.pow 2 fractionBits && leastExponent < exponent)

variable {m m' : ℕ} {e e' : ℤ} {v w : ℚ}

theorem interval_high (m : ℕ) (e : ℤ) : (interval m e).high = 4 * m + 2 := rfl

theorem le_interval_low (m : ℕ) (e : ℤ) : 4 * m - 2 ≤ (interval m e).low := by
  change 4 * m - 2 ≤ 4 * m - ite _ 1 2
  split <;> omega

theorem interval_closed_of_odd (h : m % 2 = 1) (e : ℤ) : (interval m e).closed = false := by
  change (m % 2 == 0) = false
  rw [h]
  rfl

/-- Above a power of two the interval reaches less far down. -/
theorem IsPlace.le_low (h : IsPlace m e) (he : leastExponent < e) :
    2 ^ 54 - 1 ≤ (interval m e).low := by
  have hleading := h.leading he
  rcases eq_or_lt_of_le hleading with rfl | hlt
  · have hnarrow : (2 ^ 52 == Nat.pow 2 fractionBits && decide (leastExponent < e)) = true := by
      rw [decide_eq_true he]
      rfl
    change 2 ^ 54 - 1 ≤ 4 * 2 ^ 52 - ite _ 1 2
    rw [if_pos hnarrow]
    decide
  · have hlow := le_interval_low m e
    omega

theorem IsPlace.resolves (h : IsPlace m e) : Shortest.Resolves (interval m e) where
  low := by
    have hpos := h.pos
    change 4 * m - ite _ 1 2 + 1 ≤ 4 * m
    split <;> omega
  high := Nat.lt_add_of_pos_right two_pos
  le := by
    have hlt := h.lt
    change 4 * m ≤ 10 ^ 17
    omega

/-- What rounds to a positive double is positive. -/
theorem IsPlace.pos_of_contains (h : IsPlace m e) (hv : (interval m e).Contains v) : 0 < v := by
  have hpos := h.pos
  have hlow : 0 < (interval m e).low := by
    have hle := le_interval_low m e
    omega
  exact (mul_pos (Nat.cast_pos.2 hlow) (Rounding.unit_pos _)).trans_le hv.le.1

/-- The numbers that round to a double are below those that round to a greater one. -/
theorem IsPlace.lt_of_contains (h : IsPlace m e) (h' : IsPlace m' e')
    (hlt : e < e' ∨ e = e' ∧ m < m') (hv : (interval m e).Contains v)
    (hw : (interval m' e').Contains w) : v < w := by
  have hm := h.lt
  have hunit := (interval m e).unit_pos
  rcases hlt with hlt | ⟨rfl, hlt⟩
  · have hlow := h'.le_low (h.least.trans_lt hlt)
    have hhigh : (interval m e).high ≤ 2 * (interval m' e').low := by
      rw [interval_high]
      omega
    -- One place up, the unit is at least twice as large.
    have hunits : 2 * (interval m e).unit ≤ (interval m' e').unit := by
      change 2 * (2 : ℚ) ^ (e - 2) ≤ 2 ^ (e' - 2)
      rw [← zpow_one_add₀ two_ne_zero]
      exact zpow_le_zpow_right₀ one_le_two (by omega)
    have hscaled : (2 * (interval m' e').low : ℕ) * (interval m e).unit ≤
        (interval m' e').low * (interval m' e').unit := by
      push_cast
      rw [mul_comm 2, mul_assoc]
      exact mul_le_mul_of_nonneg_left hunits (Nat.cast_nonneg _)
    refine Rounding.lt_of_contains hv hw ?_ ?_
    · exact (mul_le_mul_of_nonneg_right (Nat.cast_le.2 hhigh) hunit.le).trans hscaled
    · rcases eq_or_lt_of_le hhigh with heq | hstrict
      · rw [interval_high] at heq
        exact .inr (.inl (interval_closed_of_odd (by omega) e))
      · exact .inl ((mul_lt_mul_of_pos_right (Nat.cast_lt.2 hstrict) hunit).trans_le hscaled)
  · have hlow := le_interval_low m' e
    have hhigh : (interval m e).high ≤ (interval m' e).low := by
      rw [interval_high]
      omega
    refine Rounding.lt_of_contains hv hw
      (mul_le_mul_of_nonneg_right (Nat.cast_le.2 hhigh) hunit.le) ?_
    rcases eq_or_lt_of_le hhigh with heq | hstrict
    · rw [interval_high] at heq
      rcases Nat.mod_two_eq_zero_or_one m with heven | hodd
      · exact .inr (.inr (interval_closed_of_odd (by omega) e))
      · exact .inr (.inl (interval_closed_of_odd hodd e))
    · exact .inl (mul_lt_mul_of_pos_right (Nat.cast_lt.2 hstrict) hunit)

/-- No number rounds to two doubles. -/
theorem IsPlace.eq_of_contains (h : IsPlace m e) (h' : IsPlace m' e')
    (hv : (interval m e).Contains v) (hv' : (interval m' e').Contains v) : m = m' ∧ e = e' := by
  rcases lt_trichotomy e e' with hlt | rfl | hgt
  · exact absurd (h.lt_of_contains h' (.inl hlt) hv hv') (lt_irrefl v)
  · rcases lt_trichotomy m m' with hlt | rfl | hgt
    · exact absurd (h.lt_of_contains h' (.inr ⟨rfl, hlt⟩) hv hv') (lt_irrefl v)
    · exact ⟨rfl, rfl⟩
    · exact absurd (h'.lt_of_contains h (.inr ⟨rfl, hgt⟩) hv' hv) (lt_irrefl v)
  · exact absurd (h'.lt_of_contains h (.inl hgt) hv' hv) (lt_irrefl v)

end Binary64

end Electrokinetics
