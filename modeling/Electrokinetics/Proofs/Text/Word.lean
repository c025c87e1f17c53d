/-
**Words.**

The parts of a text that no bracket and no separator cuts are the names of parameters, fields and
functions, and numerals.  A name is an identifier, so it neither holds punctuation nor starts with a
digit: it cannot be taken for a numeral, apart from the name of infinity.

Main definitions:

* `Separator.item`, `Separator.term`, `Separator.factor` — the separators of texts;
* `IsName` — identifiers that do not stand for something else;
* `Numeral` — the texts of numbers;
* `LegibleScalar` — scalars that can be told from their texts.

Main results:

* `IsIdentifier.isWord`, `Numeral.isWord` — words hold no separator and no bracket;
* `IsName.not_numeral` — a name is not a numeral.
-/

import Electrokinetics.Scalar
import Electrokinetics.Proofs.Text.Nesting

set_option relaxedAutoImplicit false
set_option autoImplicit false

namespace Electrokinetics

open Brackets

/-! ### Separators -/

namespace Separator

/-- The characters that separate arguments, parts of a random key and sides of comparisons. -/
def item : List Char := [',', ';', '>', '&']

/-- The characters that separate items or the terms of sums, which have blanks around them. -/
def term : List Char := ' ' :: item

/-- The characters that separate terms, factors or the parts of powers. -/
def factor : List Char := '*' :: term

theorem item_subset_term : item ⊆ term := List.subset_cons_self _ _

theorem term_subset_factor : term ⊆ factor := List.subset_cons_self _ _

end Separator

/-- The characters that no word has in common with the text around it, and those that are put into
numerals. -/
def punctuation : List Char := opening ++ closing ++ Separator.factor ++ ['+', '-', '.']

/-- A text without brackets and separators. -/
def IsWord (text : List Char) : Prop :=
  ∀ c ∈ text, c ∉ opening ∧ c ∉ closing ∧ c ∉ Separator.factor

instance (text : List Char) : Decidable (IsWord text) := List.decidableBAll _ text

variable {text : List Char} {c : Char}

theorem IsWord.encloses (h : IsWord text) : Encloses Separator.factor text := .of_plain h

theorem notMem_of_isDigit {chars : List Char} (h : c.isDigit = true)
    (hchars : chars.any Char.isDigit = false) : c ∉ chars :=
  fun hc => List.any_eq_false.1 hchars c hc h

theorem isWord_of_isDigit (h : ∀ c ∈ text, c.isDigit = true) : IsWord text := by
  intro c hc
  have hdigit := h c hc
  exact ⟨notMem_of_isDigit hdigit (by decide), notMem_of_isDigit hdigit (by decide),
    notMem_of_isDigit hdigit (by decide)⟩

theorem IsWord.cons (hc : c ∉ opening ∧ c ∉ closing ∧ c ∉ Separator.factor) (h : IsWord text) :
    IsWord (c :: text) :=
  List.forall_mem_cons.2 ⟨hc, h⟩

theorem IsWord.append {text' : List Char} (h : IsWord text) (h' : IsWord text') :
    IsWord (text ++ text') :=
  List.forall_mem_append.2 ⟨h, h'⟩

/-! ### Names -/

/-- A name that can be written down: it is not empty, holds no punctuation and does not start with a
digit.  Letters of any script may occur. -/
structure IsIdentifier (name : String) : Prop where
  ne_empty : name ≠ ""
  plain : ∀ c ∈ name.toList, c ∉ punctuation
  start : ∀ c ∈ name.toList.head?, c.isDigit = false

/-- The names of numbers, truth values and coordinates. -/
def reservedNames : List String := ["inf", "NaN", "true", "false", "ctr_0", "ctr_1", "ctr_2"]

/-- An identifier that may name a parameter or a field. -/
def IsName (name : String) : Prop := IsIdentifier name ∧ name ∉ reservedNames

-- The characters of the name are gone through, not all characters there are.
instance (name : String) : Decidable (IsIdentifier name) :=
  haveI : Decidable (∀ c ∈ name.toList, c ∉ punctuation) := List.decidableBAll _ name.toList
  haveI : Decidable (∀ c ∈ name.toList.head?, c.isDigit = false) := Option.decidableForallMem _
  decidable_of_iff (name ≠ "" ∧ (∀ c ∈ name.toList, c ∉ punctuation) ∧
      ∀ c ∈ name.toList.head?, c.isDigit = false)
    ⟨fun ⟨hne, hplain, hstart⟩ => ⟨hne, hplain, hstart⟩,
      fun ⟨hne, hplain, hstart⟩ => ⟨hne, hplain, hstart⟩⟩

instance (name : String) : Decidable (IsName name) := inferInstanceAs (Decidable (_ ∧ _))

theorem IsIdentifier.isWord {name : String} (h : IsIdentifier name) : IsWord name.toList := by
  intro c hc
  have hplain := h.plain c hc
  simp only [punctuation, List.mem_append, not_or] at hplain
  exact ⟨hplain.1.1.1, hplain.1.1.2, hplain.1.2⟩

theorem IsIdentifier.toList_ne_nil {name : String} (h : IsIdentifier name) : name.toList ≠ [] :=
  fun hnil => h.ne_empty (String.toList_inj.1 hnil)

/-! ### Numerals -/

/-- Digits with an optional decimal part. -/
inductive IsDecimal : List Char → Prop
  | whole {digits : List Char} (hne : digits ≠ []) (h : ∀ c ∈ digits, c.isDigit = true) :
      IsDecimal digits
  | point {digits fraction : List Char} (hne : digits ≠ []) (h : ∀ c ∈ digits, c.isDigit = true)
      (hfraction : ∀ c ∈ fraction, c.isDigit = true) : IsDecimal (digits ++ '.' :: fraction)

/-- The text of a number without its sign: a decimal or infinity. -/
inductive Magnitude : List Char → Prop
  | infinite : Magnitude ['i', 'n', 'f']
  | finite {decimal : List Char} (h : IsDecimal decimal) : Magnitude decimal

/-- The text of a number: an optional minus sign in front of a magnitude. -/
inductive Numeral : List Char → Prop
  | unsigned {magnitude : List Char} (h : Magnitude magnitude) : Numeral magnitude
  | negative {magnitude : List Char} (h : Magnitude magnitude) : Numeral ('-' :: magnitude)

theorem IsDecimal.isWord (h : IsDecimal text) : IsWord text := by
  cases h with
  | whole hne h => exact isWord_of_isDigit h
  | point hne h hfraction =>
      exact (isWord_of_isDigit h).append ((isWord_of_isDigit hfraction).cons (by decide))

theorem IsDecimal.head_isDigit (h : IsDecimal text) : ∃ c ∈ text.head?, c.isDigit = true := by
  cases h with
  | whole hne h =>
      obtain ⟨c, digits, rfl⟩ := List.exists_cons_of_ne_nil hne
      exact ⟨c, rfl, h c List.mem_cons_self⟩
  | point hne h hfraction =>
      obtain ⟨c, digits, rfl⟩ := List.exists_cons_of_ne_nil hne
      exact ⟨c, rfl, h c List.mem_cons_self⟩

theorem Magnitude.isWord (h : Magnitude text) : IsWord text := by
  cases h with
  | infinite => decide
  | finite h => exact h.isWord

/-- A magnitude has no sign. -/
theorem Magnitude.ne_minus {text' : List Char} (h : Magnitude text) : text ≠ '-' :: text' := by
  rintro rfl
  cases h with
  | finite h =>
      obtain ⟨c, hc, hdigit⟩ := h.head_isDigit
      obtain rfl := Option.some.inj hc
      exact absurd hdigit (by decide)

/-- A sign can be told from what follows it. -/
theorem Magnitude.signed_inj {text' : List Char} {negative negative' : Bool} (h : Magnitude text)
    (h' : Magnitude text') (heq : (if negative then '-' :: text else text) =
      if negative' then '-' :: text' else text') : negative = negative' ∧ text = text' := by
  cases negative with
  | false =>
      cases negative' with
      | false => exact ⟨rfl, heq⟩
      | true => exact absurd heq h.ne_minus
  | true =>
      cases negative' with
      | false => exact absurd heq.symm h'.ne_minus
      | true => exact ⟨rfl, (List.cons.inj heq).2⟩

theorem Numeral.isWord (h : Numeral text) : IsWord text := by
  cases h with
  | unsigned h => exact h.isWord
  | negative h => exact h.isWord.cons (by decide)

/-- A numeral other than infinity starts with a digit or a minus sign. -/
theorem Numeral.eq_inf_or_head (h : Numeral text) :
    text = ['i', 'n', 'f'] ∨ ∃ c ∈ text.head?, c.isDigit = true ∨ c = '-' := by
  cases h with
  | negative h => exact .inr ⟨'-', rfl, .inr rfl⟩
  | unsigned h =>
      cases h with
      | infinite => exact .inl rfl
      | finite h =>
          obtain ⟨c, hc, hdigit⟩ := h.head_isDigit
          exact .inr ⟨c, hc, .inl hdigit⟩

theorem Numeral.ne_nil (h : Numeral text) : text ≠ [] := by
  rintro rfl
  rcases h.eq_inf_or_head with h | ⟨c, hc, -⟩
  · cases h
  · cases hc

/-- A name is not a numeral. -/
theorem IsName.not_numeral {name : String} (h : IsName name) : ¬ Numeral name.toList := by
  intro hnumeral
  rcases hnumeral.eq_inf_or_head with hinf | ⟨c, hc, hdigit | rfl⟩
  · have hname : name = "inf" := String.toList_inj.1 hinf
    exact h.2 (by rw [hname]; decide)
  · rw [h.1.start c hc] at hdigit
    cases hdigit
  · exact h.1.plain '-' (List.mem_of_head? hc) (by decide)

/-! ### Integers -/

/-- The digits of a natural number. -/
def natText (n : Nat) : List Char := (toString n).toList

/-- The digits of an integer with its sign. -/
def intText (n : Int) : List Char := (toString n).toList

theorem natText_eq (n : Nat) : natText n = Nat.toDigits 10 n := by
  rw [natText, Nat.toString_eq_repr, Nat.toList_repr]

theorem isDigit_of_mem_natText {n : Nat} (hc : c ∈ natText n) : c.isDigit = true := by
  rw [natText_eq] at hc
  exact Nat.isDigit_of_mem_toDigits (by decide) (by decide) hc

theorem intText_eq (n : Int) :
    intText n = if 0 ≤ n then natText n.toNat else '-' :: natText (-n).toNat := by
  rw [intText, Int.toString_eq_repr, Int.repr_eq_if]
  split
  · rfl
  · exact String.toList_append

theorem isWord_natText (n : Nat) : IsWord (natText n) :=
  isWord_of_isDigit fun _ => isDigit_of_mem_natText

theorem natText_ne_nil (n : Nat) : natText n ≠ [] := by
  rw [natText_eq]
  exact Nat.toDigits_ne_nil

theorem isWord_intText (n : Int) : IsWord (intText n) := by
  rw [intText_eq]
  split
  · exact isWord_natText _
  · exact (isWord_natText _).cons (by decide)

theorem natText_inj {m n : Nat} (h : natText m = natText n) : m = n := by
  have hvalue := congrArg (Nat.ofDigitChars 10 · 0) h
  simpa only [natText_eq, Nat.ofDigitChars_ten_toDigits] using hvalue

theorem intText_inj {m n : Int} (h : intText m = intText n) : m = n := by
  have hsign {k l : Nat} : natText k ≠ '-' :: natText l := fun h =>
    absurd (isDigit_of_mem_natText (h ▸ List.mem_cons_self)) (by decide)
  rw [intText_eq, intText_eq] at h
  split at h <;> split at h
  · have hnat := natText_inj h
    omega
  · exact absurd h hsign
  · exact absurd h.symm hsign
  · have hnat := natText_inj (List.cons.inj h).2
    omega

/-! ### Scalars -/

/-- Scalars that can be told from their texts, if they are numbers at all. -/
class LegibleScalar (K : Type) [Scalar K] : Prop where
  /-- A number is written as a numeral. -/
  numeral_text : ∀ {a : K}, Scalar.eq a a = true → Numeral (Scalar.text a).toList
  /-- Different numbers have different texts. -/
  text_inj : ∀ {a b : K}, Scalar.eq a a = true → Scalar.eq b b = true →
    Scalar.text a = Scalar.text b → a = b

end Electrokinetics
