/-
**The phrases of an expression.**

Each node of a tree is written as a phrase, whose parts are the texts of the nodes below it.  A node
that binds more weakly than its place asks for is put in parentheses, so what stands at a place
never shows a separator of that place: neither a blank between the factors of a product, nor an
asterisk in a base or an exponent.

Main definitions:

* `Expr.Clear` — settled nodes with names and numbers that can be read;
* `Expr.strength` — how strongly a node binds;
* `Expr.chars`, `Cond.chars` — texts as lists of characters;
* `Expr.phrase` — the phrase that a node is written as.

Main results:

* `Expr.chars_eq` — the phrase, in parentheses where the place asks for them;
* `Expr.wellFormed_phrase` — the phrases of clear trees are well formed.
-/

import Electrokinetics.Expr.Text
import Electrokinetics.Proofs.Expr.Canonical
import Electrokinetics.Proofs.Text.Phrase

set_option relaxedAutoImplicit false
set_option autoImplicit false

namespace Electrokinetics

/-! ### Keys -/

namespace RandomKey

variable {E F : Type}

theorem ext_get {key key' : RandomKey E}
    (hcounters : ∀ axis, key.counters.get axis = key'.counters.get axis)
    (hchannel : key.channel = key'.channel) (htime : key.timeStep = key'.timeStep)
    (hseed : key.seed = key'.seed) : key = key' := by
  obtain ⟨counters, channel, timeStep, seed⟩ := key
  obtain rfl : counters = key'.counters := PerAxis.ext_get hcounters
  obtain rfl : channel = key'.channel := hchannel
  obtain rfl : timeStep = key'.timeStep := htime
  obtain rfl : seed = key'.seed := hseed
  rfl

theorem get_map (f : E → F) (key : RandomKey E) (axis : Axis) :
    (key.map f).counters.get axis = f (key.counters.get axis) :=
  PerAxis.get_map f key.counters axis

end RandomKey

variable {K : Type} [Scalar K]

/-! ### Texts at a place -/

namespace Expr

/-- A node whose text can be read: numbers are numbers, and names are names. -/
def Legible : Expr K → Prop
  | .num value => Scalar.eq value value = true
  | .symbol s => IsName s.name
  | .access a => IsName a.field
  | _ => True

instance : DecidablePred (Legible (K := K))
  | .num _ => inferInstanceAs (Decidable (_ = true))
  | .symbol _ => inferInstanceAs (Decidable (IsName _))
  | .access _ => inferInstanceAs (Decidable (IsName _))
  | .counter _ | .sum _ | .prod _ | .power _ _ | .call _ _ | .modulo _ _ | .deriv _ _
  | .select _ _ _ | .random _ => .isTrue trivial

/-- A settled node whose text can be read. -/
def Clear (e : Expr K) : Prop := e.Settled ∧ e.Legible

/-- How strongly a node binds. -/
def strength : Expr K → Nat
  | .num value => if Scalar.isNegative value then Precedence.sum else Precedence.atom
  | .sum _ => Precedence.sum
  | .prod _ => Precedence.prod
  | .power _ _ => Precedence.power
  | _ => Precedence.atom

/-- The characters of the text of an expression at a place. -/
def chars (asked : Nat) (e : Expr K) : List Char := (e.render asked).toList

end Expr

/-- The characters of the text of a condition. -/
def Cond.chars (c : Cond K) : List Char := c.text.toList

namespace Expr

/-- The phrase that a node is written as. -/
def phrase : Expr K → Phrase
  | .num value => .numeral (Scalar.text value).toList
  | .symbol s => .name s.name
  | .access a => .access a
  | .counter axis => .coordinate axis
  | .sum terms => .sum (terms.map (chars Precedence.sum))
  | .prod factors => .product (factors.map (chars Precedence.power))
  | .power base exponent => .power (base.chars Precedence.atom) (exponent.chars Precedence.atom)
  | .call f args => .application (.func f) (args.map (chars Precedence.any))
  | .modulo value modulus =>
    .application .modulo [value.chars Precedence.any, modulus.chars Precedence.any]
  | .deriv arg axis => .application .deriv [arg.chars Precedence.any, natText axis.index]
  | .select cond whenTrue whenFalse =>
    .application .select
      [cond.chars, whenTrue.chars Precedence.any, whenFalse.chars Precedence.any]
  | .random key =>
    .application .random (drawArguments (key.map (chars Precedence.any)))

theorem toList_place (own asked : Nat) (text : String) :
    (Precedence.place own asked text).toList =
      if own < asked then parenthesised text.toList else text.toList := by
  unfold Precedence.place parenthesised
  split
  · simp only [String.toList_append, List.append_assoc]
    rfl
  · rfl

theorem toList_application (keyword arguments : String) :
    (keyword ++ "(" ++ arguments ++ ")").toList =
      keyword.toList ++ parenthesised arguments.toList := by
  simp only [String.toList_append, List.append_assoc]
  rfl

theorem toList_intercalate_renderList (sep : String) (asked : Nat) (es : List (Expr K)) :
    (sep.intercalate (renderList asked es)).toList =
      sep.toList.intercalate (es.map (chars asked)) := by
  rw [String.toList_intercalate, renderList_eq, List.map_map]
  rfl

theorem toList_text (e : Expr K) : e.text.toList = e.chars Precedence.any := rfl

/-! ### Texts of nodes -/

variable {asked : Nat}

theorem chars_num (value : K) : (num value).chars asked =
    if (num value).strength < asked then parenthesised (Scalar.text value).toList
    else (Scalar.text value).toList :=
  toList_place _ _ _

theorem chars_symbol (s : Symbol) : (symbol s : Expr K).chars asked = s.name.toList := rfl

theorem chars_counter (axis : Axis) :
    (counter axis : Expr K).chars asked = Phrase.counter ++ natText axis.index :=
  String.toList_append

theorem chars_sum (terms : List (Expr K)) : (sum terms).chars asked =
    if Precedence.sum < asked
    then parenthesised (Phrase.plus.intercalate (terms.map (chars Precedence.sum)))
    else Phrase.plus.intercalate (terms.map (chars Precedence.sum)) := by
  have hterms := toList_intercalate_renderList " + " Precedence.sum terms
  exact (toList_place _ _ _).trans (by rw [hterms]; rfl)

theorem chars_prod (factors : List (Expr K)) : (prod factors).chars asked =
    if Precedence.prod < asked
    then parenthesised (['*'].intercalate (factors.map (chars Precedence.power)))
    else ['*'].intercalate (factors.map (chars Precedence.power)) := by
  have hfactors := toList_intercalate_renderList "*" Precedence.power factors
  exact (toList_place _ _ _).trans (by rw [hfactors]; rfl)

theorem chars_power (base exponent : Expr K) : (power base exponent).chars asked =
    if Precedence.power < asked
    then parenthesised (powerText (base.chars Precedence.atom) (exponent.chars Precedence.atom))
    else powerText (base.chars Precedence.atom) (exponent.chars Precedence.atom) := by
  have htext : (base.render Precedence.atom ++ "**" ++ exponent.render Precedence.atom).toList =
      powerText (base.chars Precedence.atom) (exponent.chars Precedence.atom) := by
    rw [String.toList_append, String.toList_append, List.append_assoc]
    rfl
  exact (toList_place _ _ _).trans (by rw [htext])

theorem chars_call (f : Func) (args : List (Expr K)) : (call f args).chars asked =
    (Keyword.func f).text ++
      parenthesised (Phrase.comma.intercalate (args.map (chars Precedence.any))) := by
  have hargs := toList_intercalate_renderList ", " Precedence.any args
  exact (toList_application f.name _).trans (by rw [hargs]; rfl)

theorem chars_modulo (value modulus : Expr K) : (modulo value modulus).chars asked =
    Keyword.modulo.text ++ parenthesised
      (Phrase.comma.intercalate [value.chars Precedence.any, modulus.chars Precedence.any]) := by
  change ("mod(" ++ value.render Precedence.any ++ ", " ++
    modulus.render Precedence.any ++ ")").toList = _
  simp [Keyword.text, parenthesised, Phrase.comma, chars]

theorem chars_deriv (arg : Expr K) (axis : Axis) : (deriv arg axis).chars asked =
    Keyword.deriv.text ++ parenthesised
      (Phrase.comma.intercalate [arg.chars Precedence.any, natText axis.index]) := by
  change ("Diff(" ++ arg.render Precedence.any ++ ", " ++ toString axis.index ++ ")").toList = _
  simp [Keyword.text, parenthesised, Phrase.comma, chars, natText]

theorem chars_select (cond : Cond K) (whenTrue whenFalse : Expr K) :
    (select cond whenTrue whenFalse).chars asked =
      Keyword.select.text ++ parenthesised (Phrase.comma.intercalate
        [cond.chars, whenTrue.chars Precedence.any, whenFalse.chars Precedence.any]) := by
  change ("select(" ++ cond.text ++ ", " ++ whenTrue.render Precedence.any ++ ", " ++
    whenFalse.render Precedence.any ++ ")").toList = _
  simp [Keyword.text, parenthesised, Phrase.comma, chars, Cond.chars]

theorem chars_random (key : RandomKey (Expr K)) : (random key).chars asked =
    Keyword.random.text ++ parenthesised
      (Phrase.comma.intercalate (drawArguments (key.map (chars Precedence.any)))) := by
  obtain ⟨⟨x, y, z⟩, channel, timeStep, seed⟩ := key
  have htext (x y z channel timeStep seed : String) :
      ("random(" ++ x ++ ", " ++ y ++ ", " ++ z ++ "; channel " ++ channel ++ "; " ++ timeStep ++
        ", " ++ seed ++ ")").toList =
      Keyword.random.text ++ parenthesised (Phrase.comma.intercalate
        [x.toList, y.toList,
          z.toList ++ ("; channel ".toList ++ (channel.toList ++ ("; ".toList ++ timeStep.toList))),
          seed.toList]) := by
    simp [Keyword.text, parenthesised, Phrase.comma]
  exact htext _ _ _ _ _ _

/-- A node is written as its phrase, in parentheses where its place asks for more strength. -/
theorem chars_eq (hasked : asked ≤ Precedence.atom) (e : Expr K) :
    e.chars asked =
      if e.strength < asked then parenthesised e.phrase.text else e.phrase.text := by
  have hatom : ¬ Precedence.atom < asked := Nat.not_lt_of_le hasked
  cases e with
  | num value => exact chars_num value
  | symbol s => exact (if_neg hatom).symm
  | access a => exact (if_neg hatom).symm
  | counter axis => exact (chars_counter axis).trans (if_neg hatom).symm
  | sum terms => exact chars_sum terms
  | prod factors => exact chars_prod factors
  | power base exponent => exact chars_power base exponent
  | call f args => exact (chars_call f args).trans (if_neg hatom).symm
  | modulo value modulus => exact (chars_modulo value modulus).trans (if_neg hatom).symm
  | deriv arg axis => exact (chars_deriv arg axis).trans (if_neg hatom).symm
  | select cond whenTrue whenFalse =>
      exact (chars_select cond whenTrue whenFalse).trans (if_neg hatom).symm
  | random key => exact (chars_random key).trans (if_neg hatom).symm

end Expr

namespace Cond

theorem chars_const (value : Bool) : (const value : Cond K).chars =
    if value then "true".toList else "false".toList := by
  cases value <;> rfl

theorem chars_greater (lhs rhs : Expr K) : (greater lhs rhs).chars =
    lhs.chars Precedence.any ++ ([' '] ++ '>' :: ([' '] ++ rhs.chars Precedence.any)) := by
  change (lhs.render Precedence.any ++ " > " ++ rhs.render Precedence.any).toList = _
  rw [String.toList_append, String.toList_append, List.append_assoc]
  rfl

theorem chars_all (conds : List (Cond K)) : (all conds).chars =
    parenthesised ([' ', '&', '&', ' '].intercalate (conds.map chars)) := by
  change ("(" ++ " && ".intercalate (textList conds) ++ ")").toList = _
  rw [String.toList_append, String.toList_append, String.toList_intercalate, textList_eq,
    List.map_map, List.append_assoc]
  rfl

end Cond

-- From here on texts are taken apart by the equations above: the recursion behind them is not
-- opened any more.
attribute [irreducible] Expr.chars Cond.chars

/-! ### Parts -/

namespace Expr

variable {e : Expr K} {asked : Nat} {stops : List Char}

/-- What stands at a place encloses the separators of the place, if its phrase does or is in
parentheses. -/
theorem isPart_chars (hasked : asked ≤ Precedence.atom) (h : e.phrase.WellFormed)
    (hstops : ¬ e.strength < asked → stops ⊆ e.phrase.separators) :
    IsPart stops (e.chars asked) := by
  rw [chars_eq hasked]
  split
  · exact isPart_parenthesised (Phrase.encloses h).matched
  · exact (Phrase.isPart h).mono (hstops ‹_›)

theorem isPart_item (h : e.phrase.WellFormed) : IsPart Separator.item (e.chars Precedence.any) :=
  isPart_chars (by decide) h fun _ => e.phrase.item_subset_separators

theorem isPart_term (h : e.phrase.WellFormed) (hsum : e.isSum = false) :
    IsPart Separator.term (e.chars Precedence.sum) := by
  refine isPart_chars (by decide) h fun _ => ?_
  cases e with
  | sum terms => cases hsum
  | prod factors => exact List.Subset.refl _
  | power base exponent => exact List.Subset.refl _
  | _ => exact Separator.term_subset_factor

theorem isPart_atom (h : e.phrase.WellFormed) :
    IsPart Separator.factor (e.chars Precedence.atom) := by
  refine isPart_chars (by decide) h fun hstrength => ?_
  cases e with
  | sum terms => exact absurd (show Precedence.sum < Precedence.atom by decide) hstrength
  | prod factors => exact absurd (show Precedence.prod < Precedence.atom by decide) hstrength
  | power base exponent =>
      exact absurd (show Precedence.power < Precedence.atom by decide) hstrength
  | _ => exact List.Subset.refl _

theorem isFactor (h : e.phrase.WellFormed) : IsFactor (e.chars Precedence.power) := by
  have hpart (hstops : ¬ e.strength < Precedence.power → Separator.factor ⊆ e.phrase.separators) :
      IsFactor (e.chars Precedence.power) := .atom (isPart_chars (by decide) h hstops)
  cases e with
  | sum terms => exact hpart (absurd (show Precedence.sum < Precedence.power by decide))
  | prod factors => exact hpart (absurd (show Precedence.prod < Precedence.power by decide))
  | power base exponent =>
      rw [chars_power, if_neg (Nat.lt_irrefl _)]
      exact .power h.1 h.2
  | _ => exact hpart fun _ => List.Subset.refl _

end Expr

/-! ### Well-formed phrases -/

theorem Expr.isPart_argument {e : Expr K} (h : e.phrase.WellFormed) :
    IsPart [','] (e.chars Precedence.any) :=
  (isPart_item h).mono (by decide)

variable [LegibleScalar K]

/-- The induction behind `Expr.wellFormed_phrase` and `Cond.isPart_chars`. -/
theorem wellFormedSteps : Expr.InductionSteps (K := K)
    (fun e => e.All Expr.Clear → e.phrase.WellFormed)
    (fun c => c.All Expr.Clear → IsPart [',', '&'] c.chars) where
  num value h := LegibleScalar.numeral_text h.self.2
  symbol s h := h.self.2
  access a h := h.self.2
  counter axis _ := trivial
  sum terms ih h := by
    obtain ⟨hself, hterms⟩ := Expr.all_sum.1 h
    have hform : Expr.SumForm terms := hself.1
    refine ⟨by rw [List.length_map]; exact hform.two_le, List.forall_mem_map.2 fun e he => ?_⟩
    exact Expr.isPart_term (ih e he (hterms e he)) (hform.flat e he)
  prod factors ih h := by
    obtain ⟨hself, hfactors⟩ := Expr.all_prod.1 h
    have hform : Expr.ProdForm factors := hself.1
    refine ⟨by rw [List.length_map]; exact hform.two_le, List.forall_mem_map.2 fun e he => ?_⟩
    exact Expr.isFactor (ih e he (hfactors e he))
  power base exponent ih₁ ih₂ h := by
    obtain ⟨-, h₁, h₂⟩ := Expr.all_power.1 h
    exact ⟨Expr.isPart_atom (ih₁ h₁), Expr.isPart_atom (ih₂ h₂)⟩
  call f args ih h := by
    have hargs := (Expr.all_call.1 h).2
    exact List.forall_mem_map.2 fun e he => Expr.isPart_argument (ih e he (hargs e he))
  modulo value modulus ih₁ ih₂ h := by
    obtain ⟨-, h₁, h₂⟩ := Expr.all_modulo.1 h
    exact List.forall_mem_cons.2 ⟨Expr.isPart_argument (ih₁ h₁),
      List.forall_mem_singleton.2 (Expr.isPart_argument (ih₂ h₂))⟩
  deriv arg axis ih h := by
    have hindex := (isWord_natText axis.index).isPart (natText_ne_nil _)
    exact List.forall_mem_cons.2 ⟨Expr.isPart_argument (ih (Expr.all_deriv.1 h).2),
      List.forall_mem_singleton.2 (hindex.mono (by decide))⟩
  select cond whenTrue whenFalse ihc ih₁ ih₂ h := by
    obtain ⟨-, hc, h₁, h₂⟩ := Expr.all_select.1 h
    exact List.forall_mem_cons.2 ⟨(ihc hc).mono (by decide), List.forall_mem_cons.2
      ⟨Expr.isPart_argument (ih₁ h₁), List.forall_mem_singleton.2 (Expr.isPart_argument (ih₂ h₂))⟩⟩
  random key ihcounters iht ihs h := by
    obtain ⟨-, hcounters, ht, hs⟩ := Expr.all_random.1 h
    refine isPart_drawArguments (fun axis => ?_) (Expr.isPart_argument (iht ht))
      (Expr.isPart_argument (ihs hs))
    rw [RandomKey.get_map]
    exact Expr.isPart_argument (ihcounters axis (hcounters axis))
  const value _ := by
    rw [Cond.chars_const]
    cases value <;> exact ⟨by decide, by decide⟩
  greater lhs rhs ih₁ ih₂ h := by
    obtain ⟨h₁, h₂⟩ := Cond.all_greater.1 h
    have hsep : Encloses [',', '&'] [' ', '>', ' '] := by decide
    have hlhs : IsPart [',', '&'] (lhs.chars Precedence.any) :=
      (Expr.isPart_item (ih₁ h₁)).mono (by decide)
    have hrhs : IsPart [',', '&'] (rhs.chars Precedence.any) :=
      (Expr.isPart_item (ih₂ h₂)).mono (by decide)
    rw [Cond.chars_greater]
    exact hlhs.append (hsep.append hrhs.encloses)
  all conds ih h := by
    have hconds := Cond.all_all.1 h
    rw [Cond.chars_all]
    refine isPart_parenthesised (.intercalate (by decide) ?_)
    exact List.forall_mem_map.2 fun c hc => (ih c hc (hconds c hc)).encloses.matched

/-- The phrases of clear trees are well formed. -/
theorem Expr.wellFormed_phrase {e : Expr K} (h : e.All Expr.Clear) : e.phrase.WellFormed :=
  Expr.induct wellFormedSteps e h

theorem Cond.isPart_chars {c : Cond K} (h : c.All Expr.Clear) : IsPart [',', '&'] c.chars :=
  Cond.induct wellFormedSteps c h

end Electrokinetics
