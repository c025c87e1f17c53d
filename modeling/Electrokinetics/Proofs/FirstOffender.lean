/-
**The first offender in two lists.**

The builders compare what is written with what should be written and put two lists of names into one
scope.  The checks go through the lists in order and complain about the first item that is wrong: the
first position at which two lists of equal length differ, and the first item of the second list that
the first list has as well.

Main definitions:

* `FirstDifference` — the first position at which two lists differ, and what they have there;
* `FirstShared` — the first item of a list that is in another one as well;
* `firstDifference?` — the search for a difference.

Main results:

* `firstDifference?_eq_some_iff`, `firstDifference?_eq_none_iff` — what the search finds;
* `eq_or_exists_firstDifference`, `disjoint_or_exists_firstShared` — there is an offender or all is
  well;
* `firstRepeat?_append_eq_some_iff` — the first repetition in a list of two parts.
-/

import Electrokinetics.Repeat
import Mathlib.Data.List.Nodup

set_option relaxedAutoImplicit false
set_option autoImplicit false

namespace Electrokinetics

variable {α : Type}

/-! ### Offenders -/

/-- Two lists differ at position `k`, where they have `a` and `b`, and at no position before. -/
structure FirstDifference (as bs : List α) (k : Nat) (a b : α) : Prop where
  left : as[k]? = some a
  right : bs[k]? = some b
  ne : a ≠ b
  before : ∀ i < k, as[i]? = bs[i]?

/-- The second list has `b` at position `k`, the first list has it as well, and it has no item of the
second list before that position. -/
structure FirstShared (as bs : List α) (k : Nat) (b : α) : Prop where
  item : bs[k]? = some b
  shared : b ∈ as
  before : ∀ a ∈ bs.take k, a ∉ as

theorem firstDifference_zero_iff {c d a b : α} {as bs : List α} :
    FirstDifference (c :: as) (d :: bs) 0 a b ↔ c = a ∧ d = b ∧ c ≠ d := by
  constructor
  · rintro ⟨hleft, hright, hne, -⟩
    cases hleft
    cases hright
    exact ⟨rfl, rfl, hne⟩
  · rintro ⟨rfl, rfl, hne⟩
    exact ⟨rfl, rfl, hne, fun i hi => absurd hi (Nat.not_lt_zero i)⟩

theorem firstDifference_succ_iff {c d a b : α} {as bs : List α} {k : Nat} :
    FirstDifference (c :: as) (d :: bs) (k + 1) a b ↔ c = d ∧ FirstDifference as bs k a b := by
  constructor
  · rintro ⟨hleft, hright, hne, hbefore⟩
    have hhead : some c = some d := hbefore 0 (Nat.succ_pos k)
    exact ⟨Option.some.inj hhead, hleft, hright, hne,
      fun i hi => hbefore (i + 1) (Nat.succ_lt_succ hi)⟩
  · rintro ⟨rfl, hleft, hright, hne, hbefore⟩
    refine ⟨hleft, hright, hne, fun i hi => ?_⟩
    cases i with
    | zero => rfl
    | succ i => exact hbefore i (Nat.lt_of_succ_lt_succ hi)

variable [DecidableEq α]

/-! ### The search for a difference -/

/-- The first position at which two lists differ, counted from a given one, and what they have
there. -/
def firstDifference? : Nat → List α → List α → Option (Nat × α × α)
  | position, a :: as, b :: bs =>
    if a = b then firstDifference? (position + 1) as bs else some (position, a, b)
  | _, _, _ => none

theorem firstDifference?_eq_some_iff {as bs : List α} {position n : Nat} {a b : α} :
    firstDifference? position as bs = some (n, a, b) ↔
      ∃ k, n = position + k ∧ FirstDifference as bs k a b := by
  induction as generalizing bs position with
  | nil => exact iff_of_false nofun fun ⟨_, _, h⟩ => nomatch h.left
  | cons c as ih =>
      cases bs with
      | nil => exact iff_of_false nofun fun ⟨_, _, h⟩ => nomatch h.right
      | cons d bs =>
          rw [firstDifference?]
          by_cases hcd : c = d
          · rw [if_pos hcd, ih]
            constructor
            · rintro ⟨k, rfl, h⟩
              exact ⟨k + 1, Nat.succ_add_eq_add_succ position k,
                firstDifference_succ_iff.2 ⟨hcd, h⟩⟩
            · rintro ⟨k, rfl, h⟩
              cases k with
              | zero => exact absurd hcd (firstDifference_zero_iff.1 h).2.2
              | succ k =>
                  exact ⟨k, (Nat.succ_add_eq_add_succ position k).symm,
                    (firstDifference_succ_iff.1 h).2⟩
          · rw [if_neg hcd]
            constructor
            · intro h
              cases h
              exact ⟨0, rfl, firstDifference_zero_iff.2 ⟨rfl, rfl, hcd⟩⟩
            · rintro ⟨k, rfl, h⟩
              cases k with
              | zero =>
                  obtain ⟨rfl, rfl, -⟩ := firstDifference_zero_iff.1 h
                  rfl
              | succ k => exact absurd (firstDifference_succ_iff.1 h).1 hcd

theorem firstDifference?_eq_none_iff {as bs : List α} (h : as.length = bs.length)
    {position : Nat} : firstDifference? position as bs = none ↔ as = bs := by
  induction as generalizing bs position with
  | nil => exact iff_of_true rfl (List.eq_nil_of_length_eq_zero h.symm).symm
  | cons a as ih =>
      cases bs with
      | nil => cases h
      | cons b bs =>
          rw [firstDifference?, List.cons.injEq]
          by_cases hab : a = b
          · rw [if_pos hab, ih (Nat.succ.inj h)]
            exact (and_iff_right hab).symm
          · rw [if_neg hab]
            exact iff_of_false nofun fun heq => hab heq.1

theorem eq_or_exists_firstDifference {as bs : List α} (h : as.length = bs.length) :
    as = bs ∨ ∃ k a b, FirstDifference as bs k a b := by
  cases hfirst : firstDifference? 0 as bs with
  | none => exact .inl ((firstDifference?_eq_none_iff h).1 hfirst)
  | some difference =>
      obtain ⟨n, a, b⟩ := difference
      obtain ⟨k, -, hdiffer⟩ := firstDifference?_eq_some_iff.1 hfirst
      exact .inr ⟨k, a, b, hdiffer⟩

/-! ### Repetitions in a list of two parts -/

/-- Among distinct items only those that were seen at the outset are repetitions. -/
theorem firstRepeatAfter?_eq_some_iff_firstShared {seen bs : List α} (hbs : bs.Nodup) {b : α} :
    firstRepeatAfter? seen bs = some b ↔ ∃ k, FirstShared seen bs k b := by
  rw [firstRepeatAfter?_eq_some_iff]
  constructor
  · rintro ⟨before, after, rfl, -, hbefore, hb⟩
    have hnew : b ∉ before := fun hmem =>
      (List.nodup_append.1 hbs).2.2 b hmem b List.mem_cons_self rfl
    refine ⟨before.length, by simp, hb.resolve_left hnew, ?_⟩
    rw [List.take_left]
    exact hbefore
  · rintro ⟨k, hitem, hshared, hbefore⟩
    obtain ⟨hk, rfl⟩ := List.getElem?_eq_some_iff.1 hitem
    refine ⟨bs.take k, bs.drop (k + 1), ?_, hbs.sublist (List.take_sublist k bs), hbefore,
      .inr hshared⟩
    rw [← List.drop_eq_getElem_cons hk, List.take_append_drop]

theorem disjoint_or_exists_firstShared (as : List α) {bs : List α} (hbs : bs.Nodup) :
    as.Disjoint bs ∨ ∃ k b, FirstShared as bs k b := by
  cases hfirst : firstRepeatAfter? as bs with
  | none =>
      have hnew := ((firstRepeatAfter?_eq_none_iff as bs).1 hfirst).2
      exact .inl fun a ha hb => hnew a hb ha
  | some b =>
      obtain ⟨k, hshared⟩ := (firstRepeatAfter?_eq_some_iff_firstShared hbs).1 hfirst
      exact .inr ⟨k, b, hshared⟩

/-- Distinct items that were not seen before are all seen afterwards. -/
theorem firstRepeatAfter?_append {seen as : List α} (bs : List α) (has : as.Nodup)
    (hseen : ∀ a ∈ as, a ∉ seen) :
    firstRepeatAfter? seen (as ++ bs) = firstRepeatAfter? (as.reverse ++ seen) bs := by
  induction as generalizing seen with
  | nil => rfl
  | cons a as ih =>
      obtain ⟨ha, has⟩ := List.nodup_cons.1 has
      obtain ⟨hfresh, hrest⟩ := List.forall_mem_cons.1 hseen
      have hseen' : ∀ b ∈ as, b ∉ a :: seen := fun b hb hmem => by
        rcases List.mem_cons.1 hmem with rfl | hmem
        · exact ha hb
        · exact hrest b hb hmem
      rw [List.cons_append, firstRepeatAfter?, if_neg hfresh, ih has hseen', List.reverse_cons,
        List.append_assoc]
      rfl

/-- The first repetition in two lists of distinct items is the first item that they share. -/
theorem firstRepeat?_append_eq_some_iff {as bs : List α} (has : as.Nodup) (hbs : bs.Nodup) {b : α} :
    firstRepeat? (as ++ bs) = some b ↔ ∃ k, FirstShared as bs k b := by
  rw [firstRepeat?, firstRepeatAfter?_append bs has fun _ _ => List.not_mem_nil, List.append_nil,
    firstRepeatAfter?_eq_some_iff_firstShared hbs]
  refine exists_congr fun k => ⟨?_, ?_⟩
  · rintro ⟨hitem, hshared, hbefore⟩
    exact ⟨hitem, List.mem_reverse.1 hshared, fun a ha h => hbefore a ha (List.mem_reverse.2 h)⟩
  · rintro ⟨hitem, hshared, hbefore⟩
    exact ⟨hitem, List.mem_reverse.2 hshared, fun a ha h => hbefore a ha (List.mem_reverse.1 h)⟩

end Electrokinetics
