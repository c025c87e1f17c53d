/-
**Brackets and separators.**

A text is cut at its separators, but only at those outside of all brackets.  So a text that encloses
its separators, each in a pair of brackets, ends where the first separator outside of brackets
stands: what is read up to there cannot be read in two ways, and texts that are joined by separators
can be taken apart again.

Main definitions:

* `Brackets.scan` — the depth of brackets behind a text, read up to a separator outside of them;
* `Encloses` — brackets match, and no separator stands outside of them;
* `Separable` — texts that can be told from what follows them.

Main results:

* `Encloses.cut` — the first separator outside of brackets ends a text;
* `Encloses.brackets` — in brackets everything is enclosed;
* `Separable.intercalate_inj` — joined texts can be taken apart.
-/

import Mathlib.Data.List.Basic

set_option relaxedAutoImplicit false
set_option autoImplicit false

namespace Electrokinetics

/-! ### Reading brackets -/

namespace Brackets

/-- The brackets that open. -/
def opening : List Char := ['(', '[']

/-- The brackets that close. -/
def closing : List Char := [')', ']']

/-- The depth behind one more character.  There is none behind a bracket that closes nothing and
behind a separator outside of brackets: there the reading stops. -/
def step (stops : List Char) (depth : Nat) (c : Char) : Option Nat :=
  if c ∈ opening then some (depth + 1)
  else if c ∈ closing then if depth = 0 then none else some (depth - 1)
  else if depth = 0 ∧ c ∈ stops then none
  else some depth

/-- The depth behind a text. -/
def scan (stops : List Char) (depth : Nat) (text : List Char) : Option Nat :=
  text.foldlM (step stops) depth

variable {stops stops' text : List Char} {c : Char} {depth depth' : Nat}

theorem scan_cons : scan stops depth (c :: text) = (step stops depth c).bind (scan stops · text) :=
  rfl

theorem scan_append (text' : List Char) :
    scan stops depth (text ++ text') = (scan stops depth text).bind (scan stops · text') :=
  List.foldlM_append

/-- A character that does not stop the reading does not stop it further inside, where fewer
separators count. -/
theorem step_lift {k : Nat} (hstops : k = 0 → ∀ c ∈ stops', c ∈ stops)
    (h : step stops depth c = some depth') : step stops' (depth + k) c = some (depth' + k) := by
  unfold step at h ⊢
  split at h
  · rw [if_pos ‹_›, ← Option.some.inj h, Nat.add_right_comm]
  rw [if_neg ‹_›]
  split at h
  · rw [if_pos ‹_›]
    split at h
    · cases h
    · rw [if_neg (by omega), ← Option.some.inj h, Nat.sub_add_comm (by omega)]
  rw [if_neg ‹_›]
  split at h
  · cases h
  · rename_i hinside
    rw [if_neg, ← Option.some.inj h]
    rintro ⟨hzero, hc⟩
    exact hinside ⟨by omega, hstops (by omega) c hc⟩

theorem scan_lift {k : Nat} (hstops : k = 0 → ∀ c ∈ stops', c ∈ stops)
    (h : scan stops depth text = some depth') :
    scan stops' (depth + k) text = some (depth' + k) := by
  induction text generalizing depth with
  | nil => exact congrArg (Option.map (· + k)) h
  | cons c text ih =>
      obtain ⟨inner, hstep, hrest⟩ := Option.bind_eq_some_iff.1 h
      rw [scan_cons, step_lift hstops hstep]
      exact ih hrest

end Brackets

open Brackets

/-! ### Enclosed separators -/

/-- The brackets of a text match, and none of the separators stands outside of them. -/
def Encloses (stops text : List Char) : Prop := scan stops 0 text = some 0

instance (stops text : List Char) : Decidable (Encloses stops text) :=
  inferInstanceAs (Decidable (_ = _))

/-- A text is empty or starts where the reading stops. -/
def Ends (stops text : List Char) : Prop := ∀ c ∈ text.head?, step stops 0 c = none

variable {stops stops' text u v s t : List Char} {c : Char}

theorem ends_nil : Ends stops [] := fun _ h => by cases h

theorem ends_cons (h : step stops 0 c = none) : Ends stops (c :: text) := by
  intro d hd
  rwa [← Option.some.inj hd]

namespace Encloses

theorem nil : Encloses stops [] := rfl

theorem append (hu : Encloses stops u) (hv : Encloses stops v) : Encloses stops (u ++ v) := by
  unfold Encloses at *
  rw [scan_append, hu]
  exact hv

theorem mono (h : Encloses stops text) (hstops : stops' ⊆ stops) : Encloses stops' text :=
  scan_lift (k := 0) (fun _ _ hc => hstops hc) h

theorem matched (h : Encloses stops text) : Encloses [] text := h.mono (List.nil_subset _)

/-- In brackets everything is enclosed. -/
theorem brackets {o d : Char} (ho : o ∈ opening) (hd : d ∈ closing) (h : Encloses [] text) :
    Encloses stops (o :: (text ++ [d])) := by
  have hstep : step stops 0 o = some 1 := if_pos ho
  have hback : step stops 1 d = some 0 := by
    have hclose : d ∉ opening := by
      intro hopen
      rcases List.mem_pair.1 hd with rfl | rfl <;> exact absurd hopen (by decide)
    rw [step, if_neg hclose, if_pos hd, if_neg (by decide)]
  unfold Encloses
  rw [scan_cons, hstep, Option.bind_some, scan_append,
    scan_lift (k := 1) (fun h => absurd h Nat.one_ne_zero) h, Option.bind_some, scan_cons, hback]
  rfl

/-- A text without brackets and separators. -/
theorem of_plain (h : ∀ c ∈ text, c ∉ opening ∧ c ∉ closing ∧ c ∉ stops) : Encloses stops text := by
  induction text with
  | nil => exact nil
  | cons c text ih =>
      obtain ⟨⟨hopen, hclose, hc⟩, htext⟩ := List.forall_mem_cons.1 h
      have hstep : step stops 0 c = some 0 := by
        rw [step, if_neg hopen, if_neg hclose, if_neg fun h => hc h.2]
      rw [Encloses, scan_cons, hstep]
      exact ih htext

theorem intercalate {sep : List Char} {us : List (List Char)} (hsep : Encloses stops sep)
    (hus : ∀ u ∈ us, Encloses stops u) : Encloses stops (sep.intercalate us) := by
  induction us with
  | nil => exact nil
  | cons u us ih =>
      obtain ⟨hu, hus⟩ := List.forall_mem_cons.1 hus
      cases us with
      | nil =>
          rw [List.intercalate_singleton]
          exact hu
      | cons v us =>
          rw [List.intercalate_cons_cons]
          exact (hu.append hsep).append (ih hus)

/-- Behind a text that encloses its separators the next separator is not enclosed. -/
theorem not_append_cons (hu : Encloses stops u) (hc : step stops 0 c = none) :
    ¬ Encloses stops (u ++ c :: text) := by
  unfold Encloses at *
  rw [scan_append, hu, Option.bind_some, scan_cons, hc]
  exact nofun

theorem eq_nil_of_append (hu : Encloses stops u) (h : Encloses stops (u ++ v))
    (hends : Ends stops (v ++ t)) : v = [] := by
  cases v with
  | nil => rfl
  | cons c v => exact absurd h (hu.not_append_cons (hends c rfl))

/-- The first separator outside of brackets ends a text. -/
theorem cut (hu : Encloses stops u) (hv : Encloses stops v) (hs : Ends stops s) (ht : Ends stops t)
    (h : u ++ s = v ++ t) : u = v ∧ s = t := by
  rcases List.append_eq_append_iff.1 h with ⟨w, rfl, rfl⟩ | ⟨w, rfl, rfl⟩
  · obtain rfl := hu.eq_nil_of_append hv hs
    exact ⟨(List.append_nil u).symm, rfl⟩
  · obtain rfl := hv.eq_nil_of_append hu ht
    exact ⟨List.append_nil v, rfl⟩

end Encloses

/-- The first bracket ends a text without opening brackets. -/
theorem cut_opening (hu : ∀ c ∈ u, c ∉ opening) (hv : ∀ c ∈ v, c ∉ opening)
    (hs : ∃ c ∈ s.head?, c ∈ opening) (ht : ∃ c ∈ t.head?, c ∈ opening) (h : u ++ s = v ++ t) :
    u = v ∧ s = t := by
  have hempty {u w t : List Char} (hu : ∀ c ∈ u ++ w, c ∉ opening)
      (hs : ∃ c ∈ (w ++ t).head?, c ∈ opening) : w = [] := by
    cases w with
    | nil => rfl
    | cons c w =>
        obtain ⟨d, hd, hopen⟩ := hs
        obtain rfl := Option.some.inj hd
        exact absurd hopen (hu c (List.mem_append_right _ List.mem_cons_self))
  rcases List.append_eq_append_iff.1 h with ⟨w, rfl, rfl⟩ | ⟨w, rfl, rfl⟩
  · obtain rfl := hempty hv hs
    exact ⟨(List.append_nil u).symm, rfl⟩
  · obtain rfl := hempty hu ht
    exact ⟨List.append_nil v, rfl⟩

/-! ### Joined texts -/

/-- Texts of one kind can be told from what follows them, if that is of another kind. -/
def Separable (T S : List Char → Prop) : Prop :=
  ∀ ⦃u v s t⦄, T u → T v → S s → S t → u ++ s = v ++ t → u = v ∧ s = t

/-- A text is empty or starts with a separator, which has some padding before the character that
separates. -/
def StartsWith (pad : List Char) (c : Char) (text : List Char) : Prop :=
  text = [] ∨ ∃ rest, text = pad ++ c :: rest

/-- Texts that enclose a separating character can be told from such a separator behind them. -/
theorem separable_encloses (pad : List Char) (hpad : Encloses stops pad)
    (hc : step stops 0 c = none) : Separable (Encloses stops) (StartsWith pad c) := by
  rintro u v s t hu hv (rfl | ⟨s, rfl⟩) (rfl | ⟨t, rfl⟩) h
  · exact ⟨List.append_cancel_right h, rfl⟩
  · rw [List.append_nil, ← List.append_assoc] at h
    exact absurd (h ▸ hu) ((hv.append hpad).not_append_cons hc)
  · rw [List.append_nil, ← List.append_assoc] at h
    exact absurd (h ▸ hv) ((hu.append hpad).not_append_cons hc)
  · rw [← List.append_assoc, ← List.append_assoc] at h
    obtain ⟨hpadded, hrest⟩ := (hu.append hpad).cut (hv.append hpad) (ends_cons hc) (ends_cons hc) h
    exact ⟨List.append_cancel_right hpadded, by rw [hrest]⟩

theorem intercalate_cons (sep u : List Char) (us : List (List Char)) :
    sep.intercalate (u :: us) = u ++ us.flatMap (sep ++ ·) := by
  induction us generalizing u with
  | nil => rw [List.intercalate_singleton, List.flatMap_nil, List.append_nil]
  | cons v us ih =>
      rw [List.intercalate_cons_cons, ih, List.flatMap_cons, List.append_assoc, List.append_assoc]

/-- Two joined texts have a separator between them. -/
theorem intercalate_of_two_le (sep : List Char) {us : List (List Char)} (h : 2 ≤ us.length) :
    ∃ u ∈ us, ∃ rest, sep.intercalate us = u ++ (sep ++ rest) := by
  match us, h with
  | u :: v :: us, _ =>
      refine ⟨u, List.mem_cons_self, v ++ us.flatMap (sep ++ ·), ?_⟩
      rw [intercalate_cons, List.flatMap_cons, List.append_assoc]

namespace Separable

variable {T S : List Char → Prop} {sep : List Char} {us vs : List (List Char)}

/-- The texts behind the first one are taken off one by one. -/
theorem cons_inj (h : Separable T S) (hnil : S []) (hsep : ∀ u r, T u → S (sep ++ (u ++ r)))
    (hT : ∀ u, T u → u ≠ []) (hus : ∀ w ∈ u :: us, T w) (hvs : ∀ w ∈ v :: vs, T w)
    (heq : u ++ us.flatMap (sep ++ ·) = v ++ vs.flatMap (sep ++ ·)) : u :: us = v :: vs := by
  have hrest (ws : List (List Char)) (hws : ∀ w ∈ ws, T w) : S (ws.flatMap (sep ++ ·)) := by
    cases ws with
    | nil => exact hnil
    | cons w ws =>
        rw [List.flatMap_cons, List.append_assoc]
        exact hsep w _ (hws w List.mem_cons_self)
  obtain ⟨hv, htails⟩ := List.forall_mem_cons.1 hvs
  induction us generalizing u v vs with
  | nil =>
      obtain ⟨rfl, htail⟩ := h (hus u List.mem_cons_self) hv hnil (hrest vs htails) heq
      cases vs with
      | nil => rfl
      | cons w vs =>
          have hempty : w = [] := by simp_all
          exact absurd hempty (hT w (htails w List.mem_cons_self))
  | cons u' us ih =>
      obtain ⟨hu, hutails⟩ := List.forall_mem_cons.1 hus
      obtain ⟨rfl, htail⟩ := h hu hv (hrest _ hutails) (hrest vs htails) heq
      cases vs with
      | nil =>
          have hempty : u' = [] := by simp_all
          exact absurd hempty (hT u' (hutails u' List.mem_cons_self))
      | cons v' vs =>
          obtain ⟨hv', htails'⟩ := List.forall_mem_cons.1 htails
          rw [List.flatMap_cons, List.flatMap_cons, List.append_assoc, List.append_assoc] at htail
          rw [ih hutails htails (List.append_cancel_left htail) hv' htails']

/-- Joined texts can be taken apart, if none of them is empty. -/
theorem intercalate_inj (h : Separable T S) (hnil : S [])
    (hsep : ∀ u r, T u → S (sep ++ (u ++ r))) (hT : ∀ u, T u → u ≠ []) (hus : ∀ u ∈ us, T u)
    (hvs : ∀ v ∈ vs, T v) (heq : sep.intercalate us = sep.intercalate vs) : us = vs := by
  have hne (w : List Char) (ws : List (List Char)) (hw : ∀ x ∈ w :: ws, T x) :
      sep.intercalate (w :: ws) ≠ [] := by
    rw [intercalate_cons]
    exact List.append_ne_nil_of_left_ne_nil (hT w (hw w List.mem_cons_self)) _
  cases us with
  | nil =>
      cases vs with
      | nil => rfl
      | cons v vs => exact absurd heq.symm (hne v vs hvs)
  | cons u us =>
      cases vs with
      | nil => exact absurd heq (hne u us hus)
      | cons v vs =>
          rw [intercalate_cons, intercalate_cons] at heq
          exact h.cons_inj hnil hsep hT hus hvs heq

end Separable

end Electrokinetics
