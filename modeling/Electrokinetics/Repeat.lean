/-
The first repetition in a list.

Targets and names have to be distinct.  Where they are not, the item to complain about is the first
one that occurred before.

Main definitions and results:

* `firstRepeat?` — the first item that occurred before;
* `firstRepeat?_eq_none_iff` — there is none exactly if the items are distinct;
* `firstRepeat?_eq_some_iff` — where it stands;
* `firstRepeat?_map_eq_some_iff` — likewise for what some items are told apart by.
-/

set_option relaxedAutoImplicit false
set_option autoImplicit false

namespace Electrokinetics

variable {α : Type} [DecidableEq α]

/-- The first item of a list that is among the `seen` ones or occurred before in the list. -/
def firstRepeatAfter? (seen : List α) : List α → Option α
  | [] => none
  | a :: rest => if a ∈ seen then some a else firstRepeatAfter? (a :: seen) rest

/-- The first item of a list that occurred before. -/
def firstRepeat? (items : List α) : Option α := firstRepeatAfter? [] items

theorem firstRepeatAfter?_eq_none_iff (seen items : List α) :
    firstRepeatAfter? seen items = none ↔ items.Nodup ∧ ∀ a ∈ items, a ∉ seen := by
  induction items generalizing seen with
  | nil => simp [firstRepeatAfter?]
  | cons a rest ih =>
      by_cases h : a ∈ seen
      · simp [firstRepeatAfter?, h]
      · simp only [firstRepeatAfter?, h, if_false, ih, List.nodup_cons, List.mem_cons,
          forall_eq_or_imp, not_or, not_false_eq_true, true_and]
        constructor
        · rintro ⟨hd, hs⟩
          exact ⟨⟨fun ha => (hs a ha).1 rfl, hd⟩, fun b hb => (hs b hb).2⟩
        · rintro ⟨⟨ha, hd⟩, hs⟩
          exact ⟨hd, fun b hb => ⟨fun hba => ha (hba ▸ hb), hs b hb⟩⟩

theorem firstRepeat?_eq_none_iff (items : List α) : firstRepeat? items = none ↔ items.Nodup := by
  simp [firstRepeat?, firstRepeatAfter?_eq_none_iff]

theorem firstRepeatAfter?_eq_some_iff (seen items : List α) (a : α) :
    firstRepeatAfter? seen items = some a ↔
      ∃ before after, items = before ++ a :: after ∧ before.Nodup ∧ (∀ b ∈ before, b ∉ seen) ∧
        (a ∈ before ∨ a ∈ seen) := by
  induction items generalizing seen with
  | nil => simp [firstRepeatAfter?]
  | cons b rest ih =>
      by_cases h : b ∈ seen
      · simp only [firstRepeatAfter?, h, if_true, Option.some.injEq]
        constructor
        · rintro rfl
          exact ⟨[], rest, rfl, List.nodup_nil, by simp, Or.inr h⟩
        · rintro ⟨before, after, heq, -, hseen, -⟩
          cases before with
          | nil => exact (List.cons.inj heq).1
          | cons c before =>
              rw [(List.cons.inj heq).1] at h
              exact absurd h (hseen c (List.mem_cons_self ..))
      · simp only [firstRepeatAfter?, h, if_false, ih]
        constructor
        · rintro ⟨before, after, rfl, hd, hseen, hmem⟩
          refine ⟨b :: before, after, rfl, List.nodup_cons.2 ⟨fun hb => ?_, hd⟩, ?_, ?_⟩
          · exact hseen b hb (List.mem_cons_self ..)
          · intro c hc
            rcases List.mem_cons.1 hc with rfl | hc
            · exact h
            · exact fun hs => hseen c hc (List.mem_cons_of_mem _ hs)
          · rcases hmem with hm | hm
            · exact Or.inl (List.mem_cons_of_mem _ hm)
            · rcases List.mem_cons.1 hm with rfl | hm
              · exact Or.inl (List.mem_cons_self ..)
              · exact Or.inr hm
        · rintro ⟨before, after, heq, hd, hseen, hmem⟩
          cases before with
          | nil =>
              obtain ⟨rfl, -⟩ := List.cons.inj heq
              exact absurd (hmem.resolve_left (List.not_mem_nil)) h
          | cons c before =>
              obtain ⟨rfl, rfl⟩ := List.cons.inj heq
              obtain ⟨hc, hd⟩ := List.nodup_cons.1 hd
              refine ⟨before, after, rfl, hd, fun e he hs => ?_, ?_⟩
              · rcases List.mem_cons.1 hs with rfl | hs
                · exact hc he
                · exact hseen e (List.mem_cons_of_mem _ he) hs
              · rcases hmem with hm | hm
                · rcases List.mem_cons.1 hm with rfl | hm
                  · exact Or.inr (List.mem_cons_self ..)
                  · exact Or.inl hm
                · exact Or.inr (List.mem_cons_of_mem _ hm)

/-- The first repetition stands after distinct items, one of which it repeats. -/
theorem firstRepeat?_eq_some_iff (items : List α) (a : α) :
    firstRepeat? items = some a ↔
      ∃ before after, items = before ++ a :: after ∧ before.Nodup ∧ a ∈ before := by
  simp [firstRepeat?, firstRepeatAfter?_eq_some_iff]

/-- The first item of a list that agrees with an earlier one stands after items that differ. -/
theorem firstRepeat?_map_eq_some_iff {β : Type} (f : β → α) (items : List β) (a : α) :
    firstRepeat? (items.map f) = some a ↔
      ∃ before b after, items = before ++ b :: after ∧ (before.map f).Nodup ∧
        f b ∈ before.map f ∧ a = f b := by
  rw [firstRepeat?_eq_some_iff]
  constructor
  · rintro ⟨front, back, heq, hd, hm⟩
    obtain ⟨before, rest, rfl, rfl, hrest⟩ := List.map_eq_append_iff.1 heq
    obtain ⟨b, after, rfl, rfl, -⟩ := List.map_eq_cons_iff.1 hrest
    exact ⟨before, b, after, rfl, hd, hm, rfl⟩
  · rintro ⟨before, b, after, rfl, hd, hm, rfl⟩
    exact ⟨before.map f, after.map f, by rw [List.map_append, List.map_cons], hd, hm⟩

end Electrokinetics
