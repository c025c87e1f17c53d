/-
**Phrases.**

A phrase is one level of a text: the word or the field read that the text is, or the texts that an
application, a sum, a product or a power is put together from.  Whatever these parts are, as long as
they enclose the separators around them, the text shows what kind of phrase it is, and where its
parts end.

Main definitions:

* `Keyword` — what stands in front of arguments;
* `Phrase` — one level of a text, with `Phrase.text`;
* `Phrase.WellFormed` — the parts enclose the separators around them;
* `Shape`, `Shape.ofText` — the kinds of phrases, and how a text shows them.

Main results:

* `Phrase.encloses` — a phrase encloses separators in its turn;
* `Phrase.ofText_text` — a text shows the kind of its phrase;
* `Phrase.text_inj` — a text can be read in one way only.
-/

import Electrokinetics.Expr.Text
import Electrokinetics.Proofs.Text.Word

set_option relaxedAutoImplicit false
set_option autoImplicit false

namespace Electrokinetics

open Brackets

/-! ### Parts -/

/-- A text in parentheses. -/
def parenthesised (text : List Char) : List Char := '(' :: (text ++ [')'])

/-- A part of a phrase: not empty, and with the separators around it enclosed. -/
structure IsPart (stops text : List Char) : Prop where
  encloses : Encloses stops text
  ne_nil : text ≠ []

/-- The text of a power. -/
def powerText (base exponent : List Char) : List Char := base ++ '*' :: '*' :: exponent

/-- A factor of a product.  It may be a power, whose two asterisks do not separate factors. -/
inductive IsFactor : List Char → Prop
  | atom {text : List Char} (h : IsPart Separator.factor text) : IsFactor text
  | power {base exponent : List Char} (hbase : IsPart Separator.factor base)
      (hexponent : IsPart Separator.factor exponent) : IsFactor (powerText base exponent)

section Parts

variable {stops stops' text text' : List Char}

theorem encloses_parenthesised (h : Encloses [] text) : Encloses stops (parenthesised text) :=
  h.brackets (by decide) (by decide)

theorem isPart_parenthesised (h : Encloses [] text) : IsPart stops (parenthesised text) :=
  ⟨encloses_parenthesised h, List.cons_ne_nil _ _⟩

theorem parenthesised_inj (h : parenthesised text = parenthesised text') : text = text' :=
  List.append_cancel_right (List.cons.inj h).2

theorem IsPart.mono (h : IsPart stops text) (hstops : stops' ⊆ stops) : IsPart stops' text :=
  ⟨h.encloses.mono hstops, h.ne_nil⟩

theorem IsPart.append (h : IsPart stops text) (h' : Encloses stops text') :
    IsPart stops (text ++ text') :=
  ⟨h.encloses.append h', List.append_ne_nil_of_left_ne_nil h.ne_nil _⟩

theorem IsWord.isPart (h : IsWord text) (hne : text ≠ []) : IsPart Separator.factor text :=
  ⟨h.encloses, hne⟩

theorem encloses_powerText {base exponent : List Char} (hbase : Encloses Separator.factor base)
    (hexponent : Encloses Separator.factor exponent) :
    Encloses Separator.term (powerText base exponent) := by
  have hsep : Encloses Separator.term ['*', '*'] := by decide
  have hmono := Separator.term_subset_factor
  exact (hbase.mono hmono).append (hsep.append (hexponent.mono hmono))

theorem IsFactor.isPart (h : IsFactor text) : IsPart Separator.term text := by
  cases h with
  | atom h => exact h.mono Separator.term_subset_factor
  | power hbase hexponent =>
      exact ⟨encloses_powerText hbase.encloses hexponent.encloses,
        List.append_ne_nil_of_left_ne_nil hbase.ne_nil _⟩

theorem step_asterisk : step Separator.factor 0 '*' = none := by decide

/-- A part starts with no asterisk that is outside of brackets. -/
theorem IsFactor.head_ne (h : IsFactor text) : text.head? ≠ some '*' := by
  have hpart {text : List Char} (h : IsPart Separator.factor text) (rest : List Char) :
      (text ++ rest).head? ≠ some '*' := by
    obtain ⟨hencloses, hne⟩ := h
    obtain ⟨c, text, rfl⟩ := List.exists_cons_of_ne_nil hne
    rintro ⟨⟩
    exact (Encloses.nil.not_append_cons step_asterisk) hencloses
  cases h with
  | atom h =>
      have hhead := hpart h []
      rwa [List.append_nil] at hhead
  | power hbase hexponent => exact hpart hbase _

/-- Factors can be told from an asterisk behind them that stands alone. -/
theorem separable_factor :
    Separable IsFactor fun s => s = [] ∨ ∃ rest, s = '*' :: rest ∧ rest.head? ≠ some '*' := by
  have hends {s : List Char} (hs : s = [] ∨ ∃ rest, s = '*' :: rest ∧ rest.head? ≠ some '*') :
      Ends Separator.factor s := by
    rcases hs with rfl | ⟨rest, rfl, -⟩
    · exact ends_nil
    · exact ends_cons step_asterisk
  have hmixed {s rest : List Char} (hs : s = [] ∨ ∃ rest, s = '*' :: rest ∧ rest.head? ≠ some '*') :
      s ≠ '*' :: '*' :: rest := by
    rintro rfl
    rcases hs with hs | ⟨r, hr, hhead⟩
    · cases hs
    · rw [← (List.cons.inj hr).2] at hhead
      exact hhead rfl
  have hpower (rest : List Char) : Ends Separator.factor ('*' :: '*' :: rest) :=
    ends_cons step_asterisk
  intro u v s t hu hv hs ht h
  cases hu with
  | atom hu =>
      cases hv with
      | atom hv => exact hu.encloses.cut hv.encloses (hends hs) (hends ht) h
      | power hbase hexponent =>
          rw [powerText, List.append_assoc] at h
          exact absurd (hu.encloses.cut hbase.encloses (hends hs) (hpower _) h).2 (hmixed hs)
  | power hbase hexponent =>
      rw [powerText, List.append_assoc] at h
      cases hv with
      | atom hv =>
          exact absurd (hbase.encloses.cut hv.encloses (hpower _) (hends ht) h).2.symm (hmixed ht)
      | power hbase' hexponent' =>
          rw [powerText, List.append_assoc] at h
          obtain ⟨rfl, hrest⟩ := hbase.encloses.cut hbase'.encloses (hpower _) (hpower _) h
          have htails := (List.cons.inj (List.cons.inj hrest).2).2
          obtain ⟨rfl, rfl⟩ :=
            hexponent.encloses.cut hexponent'.encloses (hends hs) (hends ht) htails
          exact ⟨rfl, rfl⟩

end Parts

/-! ### Keywords -/

/-- What stands in front of arguments. -/
inductive Keyword where
  | func (f : Func)
  | modulo
  | deriv
  | select
  | random
  deriving DecidableEq

namespace Keyword

/-- The text of a keyword. -/
def text : Keyword → List Char
  | func f => f.name.toList
  | modulo => ['m', 'o', 'd']
  | deriv => ['D', 'i', 'f', 'f']
  | select => ['s', 'e', 'l', 'e', 'c', 't']
  | random => ['r', 'a', 'n', 'd', 'o', 'm']

theorem isWord_text (k : Keyword) : IsWord k.text := by
  rcases k with (_ | _) | _ <;> decide

theorem text_ne_nil (k : Keyword) : k.text ≠ [] := by
  rcases k with (_ | _) | _ <;> decide

theorem text_injective : Function.Injective text := by
  intro k l h
  rcases k with (_ | _) | _ <;> rcases l with (_ | _) | _ <;>
    first | rfl | exact absurd h (by decide)

end Keyword

/-! ### Phrases -/

/-- One level of a text. -/
inductive Phrase where
  | numeral (text : List Char)
  | name (n : String)
  | coordinate (axis : Axis)
  | access (a : Access)
  | application (keyword : Keyword) (arguments : List (List Char))
  | sum (terms : List (List Char))
  | product (factors : List (List Char))
  | power (base exponent : List Char)

namespace Phrase

/-- What stands between arguments. -/
def comma : List Char := [',', ' ']

/-- What stands between terms. -/
def plus : List Char := [' ', '+', ' ']

/-- What stands in front of the index of an axis. -/
def counter : List Char := ['c', 't', 'r', '_']

/-- The text of a phrase. -/
def text : Phrase → List Char
  | numeral text => text
  | name n => n.toList
  | coordinate axis => counter ++ natText axis.index
  | access a => a.text.toList
  | application keyword arguments => keyword.text ++ parenthesised (comma.intercalate arguments)
  | sum terms => plus.intercalate terms
  | product factors => ['*'].intercalate factors
  | power base exponent => powerText base exponent

/-- The parts of a phrase enclose the separators around them; sums and products have two parts. -/
def WellFormed : Phrase → Prop
  | numeral text => Numeral text
  | name n => IsName n
  | coordinate _ => True
  | access a => IsName a.field
  | application _ arguments => ∀ t ∈ arguments, IsPart [','] t
  | sum terms => 2 ≤ terms.length ∧ ∀ t ∈ terms, IsPart Separator.term t
  | product factors => 2 ≤ factors.length ∧ ∀ t ∈ factors, IsFactor t
  | power base exponent => IsPart Separator.factor base ∧ IsPart Separator.factor exponent

/-- The separators that a phrase encloses. -/
def separators : Phrase → List Char
  | sum _ => Separator.item
  | product _ => Separator.term
  | power _ _ => Separator.term
  | _ => Separator.factor

end Phrase

/-! ### Field reads -/

namespace Access

/-- The text of the component of a read. -/
def componentText (a : Access) : List Char :=
  if a.component = 0 then [] else parenthesised (natText a.component)

/-- The text of the offset of a read, without its brackets. -/
def offsetText (a : Access) : List Char :=
  intText a.offset.x ++ ',' :: (intText a.offset.y ++ ',' :: intText a.offset.z)

theorem toList_text (a : Access) :
    a.text.toList = a.field.toList ++ (a.componentText ++ '[' :: (a.offsetText ++ [']'])) := by
  unfold Access.text componentText offsetText parenthesised natText intText
  split <;> simp [String.toList_append]

end Access

/-! ### Random draws -/

/-- The channel and the time step of a random draw, as they stand behind the last counter. -/
def channelText (channel : Nat) (timeStep : List Char) : List Char :=
  "; channel ".toList ++ (natText channel ++ ("; ".toList ++ timeStep))

theorem encloses_channelText {timeStep : List Char} (channel : Nat) (h : Encloses [','] timeStep) :
    Encloses [','] (channelText channel timeStep) := by
  have hname : Encloses [','] "; channel ".toList := by decide
  have hsep : Encloses [','] "; ".toList := by decide
  have hchannel : Encloses [','] (natText channel) :=
    (isWord_natText channel).encloses.mono (by decide)
  exact hname.append (hchannel.append (hsep.append h))

theorem channelText_inj {channel channel' : Nat} {timeStep timeStep' : List Char}
    (h : channelText channel timeStep = channelText channel' timeStep') :
    channel = channel' ∧ timeStep = timeStep' := by
  have hword (n : Nat) := (isWord_natText n).encloses
  have hends (text : List Char) : Ends Separator.factor ("; ".toList ++ text) :=
    ends_cons (by decide)
  obtain ⟨hchannel, hrest⟩ := (hword channel).cut (hword channel') (hends _) (hends _)
    (List.append_cancel_left h)
  exact ⟨natText_inj hchannel, List.append_cancel_left hrest⟩

/-- The arguments of a random draw, for a key of texts. -/
def drawArguments (key : RandomKey (List Char)) : List (List Char) :=
  [key.counters.x, key.counters.y, key.counters.z ++ channelText key.channel key.timeStep, key.seed]

theorem isPart_drawArguments {key : RandomKey (List Char)}
    (hcounters : ∀ axis, IsPart [','] (key.counters.get axis)) (htime : IsPart [','] key.timeStep)
    (hseed : IsPart [','] key.seed) : ∀ t ∈ drawArguments key, IsPart [','] t := by
  have hthird := (hcounters .z).append (encloses_channelText key.channel htime.encloses)
  exact List.forall_mem_cons.2 ⟨hcounters .x, List.forall_mem_cons.2 ⟨hcounters .y,
    List.forall_mem_cons.2 ⟨hthird, List.forall_mem_singleton.2 hseed⟩⟩⟩

/-- The last counter ends at the first semicolon outside of brackets. -/
theorem drawArguments_inj {key key' : RandomKey (List Char)}
    (hz : Encloses Separator.item key.counters.z) (hz' : Encloses Separator.item key'.counters.z)
    (h : drawArguments key = drawArguments key') : key = key' := by
  obtain ⟨⟨x, y, z⟩, channel, timeStep, seed⟩ := key
  obtain ⟨⟨x', y', z'⟩, channel', timeStep', seed'⟩ := key'
  have hends (channel : Nat) (timeStep : List Char) :
      Ends Separator.item (channelText channel timeStep) := ends_cons (by decide)
  obtain ⟨rfl, h⟩ := List.cons.inj h
  obtain ⟨rfl, h⟩ := List.cons.inj h
  obtain ⟨hthird, h⟩ := List.cons.inj h
  obtain ⟨rfl, -⟩ := List.cons.inj h
  obtain ⟨rfl, hmiddle⟩ := hz.cut hz' (hends _ _) (hends _ _) hthird
  obtain ⟨rfl, rfl⟩ := channelText_inj hmiddle
  rfl

/-! ### What a phrase encloses -/

namespace Phrase

variable {p q : Phrase}

theorem isWord_coordinate (axis : Axis) : IsWord (coordinate axis).text := by
  have hcounter : IsWord counter := by decide
  exact hcounter.append (isWord_natText _)

theorem encloses_application {keyword : Keyword} {arguments : List (List Char)}
    (h : ∀ t ∈ arguments, IsPart [','] t) :
    Encloses Separator.factor (application keyword arguments).text := by
  refine keyword.isWord_text.encloses.append (encloses_parenthesised ?_)
  exact .intercalate (by decide) fun t ht => (h t ht).encloses.matched

end Phrase

namespace Access

theorem encloses_text {a : Access} (h : IsWord a.field.toList) :
    Encloses Separator.factor a.text.toList := by
  have hcomponent : Encloses Separator.factor a.componentText := by
    unfold Access.componentText
    split
    · exact .nil
    · exact encloses_parenthesised (isWord_natText _).encloses.matched
  have hoffset : Encloses [] a.offsetText := by
    have hint (n : Int) : Encloses [] (intText n) := (isWord_intText n).encloses.matched
    have hcomma : Encloses [] [','] := by decide
    exact (hint _).append (hcomma.append ((hint _).append (hcomma.append (hint _))))
  rw [Access.toList_text]
  exact h.encloses.append (hcomponent.append (hoffset.brackets (by decide) (by decide)))

theorem ends_comma {text : List Char} : Ends Separator.factor (',' :: text) :=
  ends_cons (by decide)

theorem offsetText_inj {a b : Access} (h : a.offsetText = b.offsetText) : a.offset = b.offset := by
  have hint (n : Int) := (isWord_intText n).encloses
  obtain ⟨hx, h⟩ := (hint a.offset.x).cut (hint b.offset.x) ends_comma ends_comma h
  obtain ⟨hy, hz⟩ :=
    (hint a.offset.y).cut (hint b.offset.y) ends_comma ends_comma (List.cons.inj h).2
  refine PerAxis.ext_get fun axis => ?_
  cases axis with
  | x => exact intText_inj hx
  | y => exact intText_inj hy
  | z => exact intText_inj (List.cons.inj hz).2

/-- The component of a read ends where its offset starts. -/
theorem componentText_inj {a b : Access} {s t : List Char}
    (h : a.componentText ++ '[' :: s = b.componentText ++ '[' :: t) :
    a.component = b.component ∧ s = t := by
  have hnat (n : Nat) := (isWord_natText n).encloses
  have hends (text : List Char) : Ends Separator.factor (')' :: text) := ends_cons (by decide)
  unfold componentText parenthesised at h
  split at h <;> rename_i ha
  · split at h <;> rename_i hb
    · exact ⟨ha.trans hb.symm, (List.cons.inj h).2⟩
    · exact absurd (List.cons.inj h).1 (by decide)
  · split at h <;> rename_i hb
    · exact absurd (List.cons.inj h).1 (by decide)
    · have hrest := (List.cons.inj h).2
      change (natText _ ++ [')']) ++ '[' :: s = (natText _ ++ [')']) ++ '[' :: t at hrest
      rw [List.append_assoc, List.append_assoc] at hrest
      obtain ⟨hcomponent, hrest⟩ := (hnat _).cut (hnat _) (hends _) (hends _) hrest
      exact ⟨natText_inj hcomponent, (List.cons.inj (List.cons.inj hrest).2).2⟩

/-- A field read can be told from its text. -/
theorem text_inj {a b : Access} (ha : IsWord a.field.toList) (hb : IsWord b.field.toList)
    (h : a.text.toList = b.text.toList) : a = b := by
  have hstart (a : Access) (text : List Char) :
      ∃ c ∈ (a.componentText ++ '[' :: text).head?, c ∈ opening := by
    unfold componentText
    split
    · exact ⟨'[', rfl, by decide⟩
    · exact ⟨'(', rfl, by decide⟩
  rw [toList_text, toList_text] at h
  obtain ⟨hfield, h⟩ := cut_opening (fun c hc => (ha c hc).1) (fun c hc => (hb c hc).1)
    (hstart a _) (hstart b _) h
  obtain ⟨hcomponent, h⟩ := componentText_inj h
  have hoffset := offsetText_inj (List.append_cancel_right h)
  obtain ⟨field, component, offset⟩ := a
  obtain rfl : field = b.field := String.toList_inj.1 hfield
  obtain rfl : component = b.component := hcomponent
  obtain rfl : offset = b.offset := hoffset
  rfl

end Access

namespace Phrase

variable {p q : Phrase}

/-- A phrase encloses separators in its turn. -/
theorem encloses (h : p.WellFormed) : Encloses p.separators p.text := by
  cases p with
  | numeral text => exact (Numeral.isWord h).encloses
  | name n => exact h.1.isWord.encloses
  | coordinate axis => exact (isWord_coordinate axis).encloses
  | access a => exact Access.encloses_text h.1.isWord
  | application keyword arguments => exact encloses_application h
  | sum terms =>
      have hplus : Encloses Separator.item plus := by decide
      exact hplus.intercalate fun t ht => (h.2 t ht).encloses.mono Separator.item_subset_term
  | product factors =>
      have hasterisk : Encloses Separator.term ['*'] := by decide
      exact hasterisk.intercalate fun t ht => (h.2 t ht).isPart.encloses
  | power base exponent => exact encloses_powerText h.1.encloses h.2.encloses

theorem text_ne_nil (h : p.WellFormed) : p.text ≠ [] := by
  cases p with
  | numeral text => exact Numeral.ne_nil h
  | name n => exact h.1.toList_ne_nil
  | coordinate axis => exact List.cons_ne_nil _ _
  | access a =>
      rw [text, Access.toList_text]
      exact List.append_ne_nil_of_left_ne_nil h.1.toList_ne_nil _
  | application keyword arguments => exact List.append_ne_nil_of_left_ne_nil keyword.text_ne_nil _
  | sum terms =>
      obtain ⟨t, ht, rest, heq⟩ := intercalate_of_two_le plus h.1
      rw [text, heq]
      exact List.append_ne_nil_of_left_ne_nil (h.2 t ht).ne_nil _
  | product factors =>
      obtain ⟨t, ht, rest, heq⟩ := intercalate_of_two_le ['*'] h.1
      rw [text, heq]
      exact List.append_ne_nil_of_left_ne_nil (h.2 t ht).isPart.ne_nil _
  | power base exponent => exact List.append_ne_nil_of_left_ne_nil h.1.ne_nil _

/-- A phrase may be a part of another one. -/
theorem isPart (h : p.WellFormed) : IsPart p.separators p.text := ⟨encloses h, text_ne_nil h⟩

theorem item_subset_separators (p : Phrase) : Separator.item ⊆ p.separators := by
  cases p with
  | sum terms => exact List.Subset.refl _
  | product factors => exact Separator.item_subset_term
  | power base exponent => exact Separator.item_subset_term
  | _ => exact List.Subset.trans Separator.item_subset_term Separator.term_subset_factor

/-! ### The shape of a text -/

/-- The kinds of phrases.  Products and powers are of one kind, and nothing that is in parentheses
as a whole is a phrase. -/
inductive Shape where
  | word
  | access
  | application
  | sum
  | product
  | group
  deriving DecidableEq

/-- The kind of a phrase. -/
def shape : Phrase → Shape
  | numeral _ => .word
  | name _ => .word
  | coordinate _ => .word
  | access _ => .access
  | application _ _ => .application
  | sum _ => .sum
  | product _ => .product
  | power _ _ => .product

/-- What kind of phrase a text is: separators outside of brackets are looked for first, then the
ends are looked at. -/
def Shape.ofText (text : List Char) : Shape :=
  if ¬ Encloses [' '] text then .sum
  else if ¬ Encloses ['*'] text then .product
  else if text.head? = some '(' then .group
  else if text.getLast? = some ']' then .access
  else if text.getLast? = some ')' then .application
  else .word

theorem Shape.ofText_of_not_encloses_blank {text : List Char} (h : ¬ Encloses [' '] text) :
    Shape.ofText text = .sum :=
  if_pos h

theorem Shape.ofText_of_not_encloses_asterisk {text : List Char} (h : Encloses Separator.term text)
    (hasterisk : ¬ Encloses ['*'] text) : Shape.ofText text = .product := by
  have hblank : Encloses [' '] text := h.mono (by decide)
  rw [Shape.ofText, if_neg (not_not_intro hblank), if_pos hasterisk]

theorem Shape.ofText_of_encloses {text : List Char} (h : Encloses Separator.factor text) :
    Shape.ofText text = if text.head? = some '(' then .group
      else if text.getLast? = some ']' then .access
      else if text.getLast? = some ')' then .application
      else .word := by
  have hblank : Encloses [' '] text := h.mono (by decide)
  have hasterisk : Encloses ['*'] text := h.mono (by decide)
  rw [Shape.ofText, if_neg (not_not_intro hblank), if_neg (not_not_intro hasterisk)]

theorem ofText_parenthesised {text : List Char} (h : Encloses [] text) :
    Shape.ofText (parenthesised text) = .group := by
  rw [Shape.ofText_of_encloses (encloses_parenthesised h)]
  exact if_pos rfl

theorem head_ne_of_isWord {word : List Char} (h : IsWord word) (hne : word ≠ [])
    (rest : List Char) : (word ++ rest).head? ≠ some '(' := by
  obtain ⟨c, word, rfl⟩ := List.exists_cons_of_ne_nil hne
  rintro ⟨⟩
  exact (h '(' List.mem_cons_self).1 (by decide)

theorem getLast?_append_brackets (text text' : List Char) (o d : Char) :
    (text ++ o :: (text' ++ [d])).getLast? = some d := by
  rw [← List.cons_append, ← List.append_assoc, List.getLast?_concat]

theorem not_encloses_asterisk {text rest : List Char} (h : IsFactor text) :
    ¬ Encloses ['*'] (text ++ '*' :: rest) := by
  have hstep : step ['*'] 0 '*' = none := by decide
  cases h with
  | atom h => exact (h.encloses.mono (by decide)).not_append_cons hstep
  | power hbase hexponent =>
      rw [powerText, List.append_assoc]
      exact (hbase.encloses.mono (by decide)).not_append_cons hstep

theorem Shape.ofText_of_isWord {text : List Char} (h : IsWord text) (hne : text ≠ []) :
    Shape.ofText text = .word := by
  have hlast {c : Char} (hc : c ∈ closing) : text.getLast? ≠ some c := fun hlast =>
    (h c (List.mem_of_getLast? hlast)).2.1 hc
  have hhead := head_ne_of_isWord h hne []
  rw [List.append_nil] at hhead
  rw [Shape.ofText_of_encloses h.encloses, if_neg hhead, if_neg (hlast (by decide)),
    if_neg (hlast (by decide))]

/-- A text shows the kind of its phrase. -/
theorem ofText_text (h : p.WellFormed) : Shape.ofText p.text = p.shape := by
  have hencloses := encloses h
  cases p with
  | numeral text => exact Shape.ofText_of_isWord (Numeral.isWord h) (Numeral.ne_nil h)
  | name n => exact Shape.ofText_of_isWord h.1.isWord h.1.toList_ne_nil
  | coordinate axis => exact Shape.ofText_of_isWord (isWord_coordinate axis) (List.cons_ne_nil _ _)
  | access a =>
      have hlast : a.text.toList.getLast? = some ']' := by
        rw [Access.toList_text, ← List.append_assoc]
        exact getLast?_append_brackets _ _ '[' ']'
      have hhead : a.text.toList.head? ≠ some '(' := by
        rw [Access.toList_text]
        exact head_ne_of_isWord h.1.isWord h.1.toList_ne_nil _
      change Shape.ofText a.text.toList = .access
      rw [Shape.ofText_of_encloses (Access.encloses_text h.1.isWord), if_neg hhead, if_pos hlast]
  | application keyword arguments =>
      have hlast : (application keyword arguments).text.getLast? = some ')' :=
        getLast?_append_brackets _ _ '(' ')'
      have hhead : (application keyword arguments).text.head? ≠ some '(' :=
        head_ne_of_isWord keyword.isWord_text keyword.text_ne_nil _
      rw [Shape.ofText_of_encloses hencloses, if_neg hhead, hlast, if_neg (by decide), if_pos rfl]
      rfl
  | sum terms =>
      obtain ⟨t, ht, rest, heq⟩ := intercalate_of_two_le plus h.1
      refine Shape.ofText_of_not_encloses_blank ?_
      rw [text, heq]
      exact ((h.2 t ht).encloses.mono (by decide)).not_append_cons (by decide)
  | product factors =>
      obtain ⟨t, ht, rest, heq⟩ := intercalate_of_two_le ['*'] h.1
      refine Shape.ofText_of_not_encloses_asterisk hencloses ?_
      rw [text, heq]
      exact not_encloses_asterisk (h.2 t ht)
  | power base exponent =>
      refine Shape.ofText_of_not_encloses_asterisk hencloses ?_
      exact not_encloses_asterisk (.atom h.1)

/-! ### Reading a phrase -/

/-- Parts that are joined by a separator with some padding can be taken apart again. -/
theorem joined_inj {stops rest : List Char} (pad : List Char) {c : Char} (hpad : Encloses stops pad)
    (hc : step stops 0 c = none) {us vs : List (List Char)} (hus : ∀ u ∈ us, IsPart stops u)
    (hvs : ∀ v ∈ vs, IsPart stops v)
    (h : (pad ++ c :: rest).intercalate us = (pad ++ c :: rest).intercalate vs) : us = vs := by
  have hseparable : Separable (IsPart stops) (StartsWith pad c) :=
    fun u v s t hu hv hs ht h => separable_encloses pad hpad hc hu.encloses hv.encloses hs ht h
  refine hseparable.intercalate_inj (.inl rfl) (fun u r _ => .inr ⟨rest ++ (u ++ r), ?_⟩)
    (fun u hu => hu.ne_nil) hus hvs h
  rw [List.append_assoc]
  rfl

theorem factors_inj {us vs : List (List Char)} (hus : ∀ u ∈ us, IsFactor u)
    (hvs : ∀ v ∈ vs, IsFactor v) (h : ['*'].intercalate us = ['*'].intercalate vs) : us = vs := by
  refine separable_factor.intercalate_inj (.inl rfl) (fun u r hu => .inr ⟨u ++ r, rfl, ?_⟩)
    (fun u hu => hu.isPart.ne_nil) hus hvs h
  obtain ⟨c, rest, rfl⟩ := List.exists_cons_of_ne_nil hu.isPart.ne_nil
  exact hu.head_ne

theorem axis_index_injective : Function.Injective Axis.index := by
  intro i j h
  have hindex := congrArg Axis.ofIndex? h
  rw [Axis.ofIndex?_index, Axis.ofIndex?_index] at hindex
  exact Option.some.inj hindex

theorem name_ne_numeral {n : String} {t : List Char} (hn : IsName n) (ht : Numeral t) :
    n.toList ≠ t := by
  rintro rfl
  exact hn.not_numeral ht

theorem coordinate_ne_numeral (axis : Axis) {t : List Char} (h : Numeral t) :
    (coordinate axis).text ≠ t := by
  rintro rfl
  rcases h.eq_inf_or_head with hinf | ⟨c, hc, hdigit⟩
  · exact absurd (List.cons.inj hinf).1 (by decide)
  · obtain rfl := Option.some.inj hc
    exact absurd hdigit (by decide)

theorem name_ne_coordinate {n : String} (h : IsName n) (axis : Axis) :
    n.toList ≠ (coordinate axis).text := by
  intro heq
  have hreserved (m : String) (hm : m ∈ reservedNames) (htext : n.toList = m.toList) : False := by
    rw [String.toList_inj.1 htext] at h
    exact h.2 hm
  cases axis with
  | x => exact hreserved "ctr_0" (by decide) (heq.trans (by decide))
  | y => exact hreserved "ctr_1" (by decide) (heq.trans (by decide))
  | z => exact hreserved "ctr_2" (by decide) (heq.trans (by decide))

/-- Names, numerals and coordinates can be told from each other. -/
theorem text_inj_of_word (hp : p.WellFormed) (hq : q.WellFormed) (hpword : p.shape = .word)
    (hqword : q.shape = .word) (h : p.text = q.text) : p = q := by
  cases p with
  | numeral t =>
      cases q with
      | numeral t' => exact congrArg numeral h
      | name n => exact absurd h.symm (name_ne_numeral hq hp)
      | coordinate axis => exact absurd h.symm (coordinate_ne_numeral axis hp)
      | _ => cases hqword
  | name n =>
      cases q with
      | numeral t => exact absurd h (name_ne_numeral hp hq)
      | name n' => exact congrArg name (String.toList_inj.1 h)
      | coordinate axis => exact absurd h (name_ne_coordinate hp axis)
      | _ => cases hqword
  | coordinate axis =>
      cases q with
      | numeral t => exact absurd h (coordinate_ne_numeral axis hq)
      | name n => exact absurd h.symm (name_ne_coordinate hq axis)
      | coordinate axis' =>
          have hindex := natText_inj (List.append_cancel_left h)
          exact congrArg coordinate (axis_index_injective hindex)
      | _ => cases hqword
  | _ => cases hpword

theorem application_inj {k l : Keyword} {us vs : List (List Char)}
    (hus : (application k us).WellFormed) (hvs : (application l vs).WellFormed)
    (h : (application k us).text = (application l vs).text) :
    application k us = application l vs := by
  have hopen (t : List Char) : ∃ c ∈ (parenthesised t).head?, c ∈ opening :=
    ⟨'(', rfl, by decide⟩
  obtain ⟨hkeyword, harguments⟩ := cut_opening (fun c hc => (k.isWord_text c hc).1)
    (fun c hc => (l.isWord_text c hc).1) (hopen _) (hopen _) h
  rw [Keyword.text_injective hkeyword,
    joined_inj [] .nil (by decide) hus hvs (parenthesised_inj harguments)]

theorem powerText_inj {b x b' x' : List Char} (hb : IsPart Separator.factor b)
    (hb' : IsPart Separator.factor b') (h : powerText b x = powerText b' x') : b = b' ∧ x = x' := by
  have hends (t : List Char) : Ends Separator.factor ('*' :: '*' :: t) := ends_cons step_asterisk
  obtain ⟨hbase, hrest⟩ := hb.encloses.cut hb'.encloses (hends x) (hends x') h
  exact ⟨hbase, (List.cons.inj (List.cons.inj hrest).2).2⟩

/-- A product is not one of its factors: a power is a product of one factor, as far as its text
shows. -/
theorem product_ne_factor {t : List Char} (ht : IsFactor t) {us : List (List Char)}
    (hus : (product us).WellFormed) : (product us).text ≠ t := by
  intro h
  have hsingleton : ['*'].intercalate [t] = t := List.intercalate_singleton
  have hone := factors_inj hus.2 (List.forall_mem_singleton.2 ht) (h.trans hsingleton.symm)
  have htwo := hus.1
  rw [hone] at htwo
  exact absurd htwo (Nat.not_succ_le_self 1)

/-- A text can be read in one way only. -/
theorem text_inj (hp : p.WellFormed) (hq : q.WellFormed) (h : p.text = q.text) : p = q := by
  have hshape : p.shape = q.shape := by rw [← ofText_text hp, ← ofText_text hq, h]
  cases p with
  | numeral t => exact text_inj_of_word hp hq rfl hshape.symm h
  | name n => exact text_inj_of_word hp hq rfl hshape.symm h
  | coordinate axis => exact text_inj_of_word hp hq rfl hshape.symm h
  | access a =>
      cases q with
      | access b => exact congrArg access (Access.text_inj hp.1.isWord hq.1.isWord h)
      | _ => cases hshape
  | application k us =>
      cases q with
      | application l vs => exact application_inj hp hq h
      | _ => cases hshape
  | sum us =>
      cases q with
      | sum vs => exact congrArg sum (joined_inj [] .nil (by decide) hp.2 hq.2 h)
      | _ => cases hshape
  | product us =>
      cases q with
      | product vs => exact congrArg product (factors_inj hp.2 hq.2 h)
      | power b x => exact absurd h (product_ne_factor (.power hq.1 hq.2) hp)
      | _ => cases hshape
  | power b x =>
      cases q with
      | product vs => exact absurd h.symm (product_ne_factor (.power hp.1 hp.2) hq)
      | power b' x' =>
          obtain ⟨rfl, rfl⟩ := powerText_inj hp.1 hq.1 h
          rfl
      | _ => cases hshape

end Phrase

end Electrokinetics
