/-
**What a text says.**

Logs, errors and comparisons of kernels look at the texts of expressions.  The text of a clear tree
leaves only the kinds of its parameters out: it shows which phrase the root is and what the parts of
the phrase are, and so on down the tree.  Parentheses do not get in the way, since a phrase never is
in parentheses as a whole.

Main definitions:

* `Expr.eraseKinds` — the tree without the kinds of its parameters;
* `Expr.Readable` — a tree that no other tree is written like.

Main results:

* `Expr.text_eraseKinds` — the kinds do not show;
* `Expr.phrase_eq_of_chars` — what stands at a place shows the phrase behind it;
* `Expr.text_unambiguous` — trees have the same text exactly if they are the same up to the kinds.
-/

import Electrokinetics.Proofs.Expr.Phrases
import Electrokinetics.Proofs.Scalar.Legible

set_option relaxedAutoImplicit false
set_option autoImplicit false

namespace Electrokinetics

variable {K : Type}

/-! ### Leaving the kinds out -/

mutual

/-- The tree with all parameters of the kind of real numbers. -/
@[simp] def Expr.eraseKinds : Expr K → Expr K
  | .num value => .num value
  | .symbol s => .symbol { s with kind := .real }
  | .access a => .access a
  | .counter axis => .counter axis
  | .sum es => .sum (Expr.eraseKindsList es)
  | .prod es => .prod (Expr.eraseKindsList es)
  | .power base exponent => .power base.eraseKinds exponent.eraseKinds
  | .call g es => .call g (Expr.eraseKindsList es)
  | .modulo value modulus => .modulo value.eraseKinds modulus.eraseKinds
  | .deriv arg axis => .deriv arg.eraseKinds axis
  | .select cond whenTrue whenFalse =>
    .select cond.eraseKinds whenTrue.eraseKinds whenFalse.eraseKinds
  | .random ⟨⟨x, y, z⟩, channel, timeStep, seed⟩ =>
    .random ⟨⟨x.eraseKinds, y.eraseKinds, z.eraseKinds⟩, channel, timeStep.eraseKinds,
      seed.eraseKinds⟩

/-- Leaves the kinds out of a condition. -/
@[simp] def Cond.eraseKinds : Cond K → Cond K
  | .const value => .const value
  | .greater lhs rhs => .greater lhs.eraseKinds rhs.eraseKinds
  | .all conds => .all (Cond.eraseKindsList conds)

/-- Leaves the kinds out of a list of expressions. -/
@[simp] def Expr.eraseKindsList : List (Expr K) → List (Expr K)
  | [] => []
  | e :: es => e.eraseKinds :: Expr.eraseKindsList es

/-- Leaves the kinds out of a list of conditions. -/
@[simp] def Cond.eraseKindsList : List (Cond K) → List (Cond K)
  | [] => []
  | c :: cs => c.eraseKinds :: Cond.eraseKindsList cs

end

theorem Cond.eraseKindsList_eq (cs : List (Cond K)) :
    Cond.eraseKindsList cs = cs.map Cond.eraseKinds := by
  induction cs with
  | nil => rfl
  | cons c cs ih => rw [Cond.eraseKindsList, ih, List.map_cons]

theorem Expr.eraseKindsList_eq (es : List (Expr K)) :
    Expr.eraseKindsList es = es.map Expr.eraseKinds := by
  induction es with
  | nil => rfl
  | cons e es ih => rw [Expr.eraseKindsList, ih, List.map_cons]

theorem Expr.eraseKinds_random (key : RandomKey (Expr K)) :
    (random key).eraseKinds = random (key.map Expr.eraseKinds) := by
  obtain ⟨⟨x, y, z⟩, channel, timeStep, seed⟩ := key
  rfl

/-! ### The kinds do not show -/

variable [Scalar K]

theorem Expr.map_chars_eraseKinds {asked : Nat} {es : List (Expr K)}
    (h : ∀ e ∈ es, ∀ asked, e.eraseKinds.chars asked = e.chars asked) :
    (es.map Expr.eraseKinds).map (Expr.chars asked) = es.map (Expr.chars asked) := by
  rw [List.map_map]
  exact List.map_congr_left fun e he => h e he asked

/-- The induction behind `Expr.text_eraseKinds`. -/
theorem charsEraseKindsSteps : Expr.InductionSteps (K := K)
    (fun e => ∀ asked, e.eraseKinds.chars asked = e.chars asked)
    (fun c => c.eraseKinds.chars = c.chars) where
  num value _ := by rw [Expr.eraseKinds]
  symbol s _ := by rw [Expr.eraseKinds, Expr.chars_symbol, Expr.chars_symbol]
  access a _ := by rw [Expr.eraseKinds]
  counter axis _ := by rw [Expr.eraseKinds]
  sum terms ih asked := by
    rw [Expr.eraseKinds, Expr.eraseKindsList_eq, Expr.chars_sum, Expr.chars_sum,
      Expr.map_chars_eraseKinds ih]
  prod factors ih asked := by
    rw [Expr.eraseKinds, Expr.eraseKindsList_eq, Expr.chars_prod, Expr.chars_prod,
      Expr.map_chars_eraseKinds ih]
  power base exponent ih₁ ih₂ asked := by
    rw [Expr.eraseKinds, Expr.chars_power, Expr.chars_power, ih₁, ih₂]
  call f args ih asked := by
    rw [Expr.eraseKinds, Expr.eraseKindsList_eq, Expr.chars_call, Expr.chars_call,
      Expr.map_chars_eraseKinds ih]
  modulo value modulus ih₁ ih₂ asked := by
    rw [Expr.eraseKinds, Expr.chars_modulo, Expr.chars_modulo, ih₁, ih₂]
  deriv arg axis ih asked := by
    rw [Expr.eraseKinds, Expr.chars_deriv, Expr.chars_deriv, ih]
  select cond whenTrue whenFalse ihc ih₁ ih₂ asked := by
    rw [Expr.eraseKinds, Expr.chars_select, Expr.chars_select, ihc, ih₁, ih₂]
  random key ihcounters iht ihs asked := by
    have hkey : (key.map Expr.eraseKinds).map (Expr.chars Precedence.any) =
        key.map (Expr.chars Precedence.any) := by
      refine RandomKey.ext_get (fun axis => ?_) rfl (iht _) (ihs _)
      rw [RandomKey.get_map, RandomKey.get_map, RandomKey.get_map]
      exact ihcounters axis _
    rw [Expr.eraseKinds_random, Expr.chars_random, Expr.chars_random, hkey]
  const value := by rw [Cond.eraseKinds]
  greater lhs rhs ih₁ ih₂ := by
    rw [Cond.eraseKinds, Cond.chars_greater, Cond.chars_greater, ih₁, ih₂]
  all conds ih := by
    rw [Cond.eraseKinds, Cond.eraseKindsList_eq, Cond.chars_all, Cond.chars_all, List.map_map]
    exact congrArg (fun texts => parenthesised ([' ', '&', '&', ' '].intercalate texts))
      (List.map_congr_left ih)

/-- The kinds of the parameters do not show in the text. -/
theorem Expr.text_eraseKinds (e : Expr K) : e.eraseKinds.text = e.text := by
  refine String.toList_inj.1 ?_
  rw [Expr.toList_text, Expr.toList_text]
  exact Expr.induct charsEraseKindsSteps e Precedence.any

/-! ### Reading a place -/

variable [LegibleScalar K]

namespace Expr

variable {e f : Expr K} {asked : Nat}

/-- What stands at a place shows the phrase behind it: either both texts are in parentheses or none
is, since a phrase never is in parentheses as a whole. -/
theorem phrase_eq_of_chars (hasked : asked ≤ Precedence.atom) (he : e.All Clear) (hf : f.All Clear)
    (h : e.chars asked = f.chars asked) : e.phrase = f.phrase := by
  have hgroup {p q : Phrase} (hp : p.WellFormed) (hq : q.WellFormed) :
      parenthesised p.text ≠ q.text := by
    intro heq
    have hshape := Phrase.ofText_text hq
    rw [← heq, Phrase.ofText_parenthesised (Phrase.encloses hp).matched] at hshape
    cases q <;> cases hshape
  have hwe := wellFormed_phrase he
  have hwf := wellFormed_phrase hf
  rw [chars_eq hasked, chars_eq hasked] at h
  split at h <;> split at h
  · exact Phrase.text_inj hwe hwf (parenthesised_inj h)
  · exact absurd h (hgroup hwe hwf)
  · exact absurd h.symm (hgroup hwf hwe)
  · exact Phrase.text_inj hwe hwf h

end Expr

theorem Expr.encloses_item {e : Expr K} (h : e.All Clear) :
    Encloses Separator.item (e.chars Precedence.any) :=
  (isPart_item (wellFormed_phrase h)).encloses

theorem map_eq_map_of_map_eq_map {α β γ : Type} {key : α → β} {g : α → γ} {as bs : List α}
    (h : ∀ a ∈ as, ∀ b ∈ bs, key a = key b → g a = g b) (heq : as.map key = bs.map key) :
    as.map g = bs.map g := by
  induction as generalizing bs with
  | nil => rw [List.map_eq_nil_iff.1 heq.symm]
  | cons a as ih =>
      cases bs with
      | nil => cases heq
      | cons b bs =>
          obtain ⟨hhead, htail⟩ := List.cons.inj heq
          have hrest := ih (fun a ha b hb => h a (List.mem_cons_of_mem _ ha) b
            (List.mem_cons_of_mem _ hb)) htail
          rw [List.map_cons, List.map_cons, hrest,
            h a List.mem_cons_self b List.mem_cons_self hhead]

/-! ### Conditions -/

namespace Cond

/-- A condition that stands in a clear case distinction. -/
structure Clear (c : Cond K) : Prop where
  isConst : c.isConst = false
  settled : c.Settled
  nodes : c.All Expr.Clear

omit [LegibleScalar K] in
theorem Clear.conds {conds : List (Cond K)} (h : (all conds).Clear) : ∀ c ∈ conds, c.Clear := by
  intro c hc
  have hopen := h.settled.2 c hc
  refine ⟨?_, settled_of_isOpen hopen, all_all.1 h.nodes c hc⟩
  cases c with
  | const value => cases hopen
  | _ => rfl

omit [LegibleScalar K] in
theorem Clear.of_select {cond : Cond K} {whenTrue whenFalse : Expr K}
    (h : (Expr.select cond whenTrue whenFalse).Clear) (hcond : cond.All Expr.Clear) : cond.Clear :=
  ⟨h.1.1, h.1.2.1, hcond⟩

omit [LegibleScalar K] in
theorem Clear.sides {lhs rhs : Expr K} (h : (greater lhs rhs).Clear) :
    lhs.All Expr.Clear ∧ rhs.All Expr.Clear :=
  all_greater.1 h.nodes

/-- The sides of a comparison are on the two sides of the first sign outside of brackets. -/
theorem chars_greater_inj {lhs rhs lhs' rhs' : Expr K} (h : (greater lhs rhs).Clear)
    (h' : (greater lhs' rhs').Clear) (heq : (greater lhs rhs).chars = (greater lhs' rhs').chars) :
    lhs.phrase = lhs'.phrase ∧ rhs.phrase = rhs'.phrase := by
  have hside {e : Expr K} (he : e.All Expr.Clear) : Encloses ['>'] (e.chars Precedence.any) :=
    (Expr.encloses_item he).mono (by decide)
  rw [chars_greater, chars_greater] at heq
  obtain ⟨hl, hr⟩ := separable_encloses [' '] (by decide) (by decide) (hside h.sides.1)
    (hside h'.sides.1) (.inr ⟨_, rfl⟩) (.inr ⟨_, rfl⟩) heq
  have hr := (List.cons.inj (List.cons.inj (List.cons.inj hr).2).2).2
  exact ⟨Expr.phrase_eq_of_chars (by decide) h.sides.1 h'.sides.1 hl,
    Expr.phrase_eq_of_chars (by decide) h.sides.2 h'.sides.2 hr⟩

theorem chars_all_inj {conds conds' : List (Cond K)} (h : (all conds).Clear)
    (h' : (all conds').Clear) (heq : (all conds).chars = (all conds').chars) :
    conds.map chars = conds'.map chars := by
  have hpart {cs : List (Cond K)} (hcs : (all cs).Clear) :
      ∀ t ∈ cs.map chars, IsPart ['&'] t := by
    refine List.forall_mem_map.2 fun c hc => (isPart_chars ?_).mono (by decide)
    exact (hcs.conds c hc).nodes
  rw [chars_all, chars_all] at heq
  exact Phrase.joined_inj [' '] (by decide) (by decide) (hpart h) (hpart h')
    (parenthesised_inj heq)

/-- A comparison is not in parentheses as a whole. -/
theorem chars_greater_ne_chars_all {lhs rhs : Expr K} (h : (greater lhs rhs).Clear)
    {conds : List (Cond K)} (h' : (all conds).Clear) :
    (greater lhs rhs).chars ≠ (all conds).chars := by
  intro heq
  have hside : Encloses ['>'] (lhs.chars Precedence.any) :=
    (Expr.encloses_item h.sides.1).mono (by decide)
  have hblank : Encloses ['>'] [' '] := by decide
  have hconds : Encloses ['>'] (all conds).chars := by
    rw [chars_all]
    refine encloses_parenthesised (.intercalate (by decide) ?_)
    exact List.forall_mem_map.2 fun c hc => (isPart_chars (h'.conds c hc).nodes).encloses.matched
  rw [← heq, chars_greater, ← List.append_assoc] at hconds
  exact (hside.append hblank).not_append_cons (by decide) hconds

end Cond

/-! ### Reading a tree -/

/-- A clear tree that no other clear tree is written like, up to the kinds. -/
def Expr.Readable (e : Expr K) : Prop :=
  e.All Expr.Clear → ∀ f : Expr K, f.All Expr.Clear → e.phrase = f.phrase →
    e.eraseKinds = f.eraseKinds

/-- A clear condition that no other clear condition is written like, up to the kinds. -/
def Cond.Readable (c : Cond K) : Prop :=
  c.Clear → ∀ d : Cond K, d.Clear → c.chars = d.chars → c.eraseKinds = d.eraseKinds

namespace Expr.Readable

variable {e f : Expr K} {es fs : List (Expr K)} {asked : Nat}

theorem of_chars (h : e.Readable) (hasked : asked ≤ Precedence.atom) (he : e.All Clear)
    (hf : f.All Clear) (heq : e.chars asked = f.chars asked) : e.eraseKinds = f.eraseKinds :=
  h he f hf (phrase_eq_of_chars hasked he hf heq)

theorem of_map_chars (h : ∀ e ∈ es, e.Readable) (hasked : asked ≤ Precedence.atom)
    (hes : ∀ e ∈ es, e.All Clear) (hfs : ∀ f ∈ fs, f.All Clear)
    (heq : es.map (chars asked) = fs.map (chars asked)) :
    eraseKindsList es = eraseKindsList fs := by
  rw [eraseKindsList_eq, eraseKindsList_eq]
  exact map_eq_map_of_map_eq_map
    (fun e he f hf heq => (h e he).of_chars hasked (hes e he) (hfs f hf) heq) heq

end Expr.Readable

/-- The induction behind `Expr.readable`.  Phrases of different kinds differ, so the roots are of
the same kind in each case, and the parts of the phrases are the texts of the parts. -/
theorem readableSteps : Expr.InductionSteps (K := K) Expr.Readable Cond.Readable where
  num value h f hf heq := by
    cases f with
    | num value' =>
        have htext := String.toList_inj.1 (Phrase.numeral.inj heq)
        rw [LegibleScalar.text_inj h.self.2 hf.self.2 htext]
    | _ => cases heq
  symbol s h f hf heq := by
    cases f with
    | symbol s' =>
        have hname : s.name = s'.name := Phrase.name.inj heq
        rw [Expr.eraseKinds, Expr.eraseKinds, hname]
    | _ => cases heq
  access a h f hf heq := by
    cases f with
    | access a' => rw [Phrase.access.inj heq]
    | _ => cases heq
  counter axis h f hf heq := by
    cases f with
    | counter axis' => rw [Phrase.coordinate.inj heq]
    | _ => cases heq
  sum terms ih h f hf heq := by
    cases f with
    | sum terms' =>
        rw [Expr.eraseKinds, Expr.eraseKinds, Expr.Readable.of_map_chars ih (by decide)
          (Expr.all_sum.1 h).2 (Expr.all_sum.1 hf).2 (Phrase.sum.inj heq)]
    | _ => cases heq
  prod factors ih h f hf heq := by
    cases f with
    | prod factors' =>
        rw [Expr.eraseKinds, Expr.eraseKinds, Expr.Readable.of_map_chars ih (by decide)
          (Expr.all_prod.1 h).2 (Expr.all_prod.1 hf).2 (Phrase.product.inj heq)]
    | _ => cases heq
  power base exponent ih₁ ih₂ h f hf heq := by
    cases f with
    | power base' exponent' =>
        obtain ⟨-, hbase, hexponent⟩ := Expr.all_power.1 h
        obtain ⟨-, hbase', hexponent'⟩ := Expr.all_power.1 hf
        obtain ⟨heq₁, heq₂⟩ := Phrase.power.inj heq
        rw [Expr.eraseKinds, Expr.eraseKinds, ih₁.of_chars (by decide) hbase hbase' heq₁,
          ih₂.of_chars (by decide) hexponent hexponent' heq₂]
    | _ => cases heq
  call g args ih h f hf heq := by
    cases f with
    | call g' args' =>
        obtain ⟨hkeyword, hargs⟩ := Phrase.application.inj heq
        rw [Expr.eraseKinds, Expr.eraseKinds, Keyword.func.inj hkeyword,
          Expr.Readable.of_map_chars ih (by decide) (Expr.all_call.1 h).2 (Expr.all_call.1 hf).2
            hargs]
    | _ => cases heq
  modulo value modulus ih₁ ih₂ h f hf heq := by
    cases f with
    | modulo value' modulus' =>
        obtain ⟨-, hvalue, hmodulus⟩ := Expr.all_modulo.1 h
        obtain ⟨-, hvalue', hmodulus'⟩ := Expr.all_modulo.1 hf
        obtain ⟨heq₁, hrest⟩ := List.cons.inj (Phrase.application.inj heq).2
        rw [Expr.eraseKinds, Expr.eraseKinds, ih₁.of_chars (by decide) hvalue hvalue' heq₁,
          ih₂.of_chars (by decide) hmodulus hmodulus' (List.cons.inj hrest).1]
    | _ => cases heq
  deriv arg axis ih h f hf heq := by
    cases f with
    | deriv arg' axis' =>
        obtain ⟨heqarg, hrest⟩ := List.cons.inj (Phrase.application.inj heq).2
        have haxis := Phrase.axis_index_injective (natText_inj (List.cons.inj hrest).1)
        rw [Expr.eraseKinds, Expr.eraseKinds, haxis,
          ih.of_chars (by decide) (Expr.all_deriv.1 h).2 (Expr.all_deriv.1 hf).2 heqarg]
    | _ => cases heq
  select cond whenTrue whenFalse ihc ih₁ ih₂ h f hf heq := by
    cases f with
    | select cond' whenTrue' whenFalse' =>
        obtain ⟨hself, hcond, htrue, hfalse⟩ := Expr.all_select.1 h
        obtain ⟨hself', hcond', htrue', hfalse'⟩ := Expr.all_select.1 hf
        obtain ⟨heqc, hrest⟩ := List.cons.inj (Phrase.application.inj heq).2
        obtain ⟨heq₁, hrest⟩ := List.cons.inj hrest
        have hcondition := ihc (.of_select hself hcond) _ (.of_select hself' hcond') heqc
        rw [Expr.eraseKinds, Expr.eraseKinds, hcondition,
          ih₁.of_chars (by decide) htrue htrue' heq₁,
          ih₂.of_chars (by decide) hfalse hfalse' (List.cons.inj hrest).1]
    | _ => cases heq
  random key ihcounters iht ihs h f hf heq := by
    cases f with
    | random key' =>
        obtain ⟨-, hcounters, htime, hseed⟩ := Expr.all_random.1 h
        obtain ⟨-, hcounters', htime', hseed'⟩ := Expr.all_random.1 hf
        have hkey := drawArguments_inj (Expr.encloses_item (hcounters .z))
          (Expr.encloses_item (hcounters' .z)) (Phrase.application.inj heq).2
        have hcounter (axis : Axis) : (key.counters.get axis).chars Precedence.any =
            (key'.counters.get axis).chars Precedence.any := by
          simpa only [RandomKey.get_map] using
            congrArg (fun k : RandomKey (List Char) => k.counters.get axis) hkey
        obtain ⟨-, hchannel, heqtime, heqseed⟩ := RandomKey.mk.inj hkey
        have herased : key.map Expr.eraseKinds = key'.map Expr.eraseKinds := by
          refine RandomKey.ext_get (fun axis => ?_) hchannel
            (iht.of_chars (by decide) htime htime' heqtime)
            (ihs.of_chars (by decide) hseed hseed' heqseed)
          rw [RandomKey.get_map, RandomKey.get_map]
          exact (ihcounters axis).of_chars (by decide) (hcounters axis) (hcounters' axis)
            (hcounter axis)
        rw [Expr.eraseKinds_random, Expr.eraseKinds_random, herased]
    | _ => cases heq
  const value h d hd heq := by cases h.isConst
  greater lhs rhs ih₁ ih₂ h d hd heq := by
    cases d with
    | const value => cases hd.isConst
    | greater lhs' rhs' =>
        obtain ⟨hl, hr⟩ := Cond.chars_greater_inj h hd heq
        rw [Cond.eraseKinds, Cond.eraseKinds, ih₁ h.sides.1 _ hd.sides.1 hl,
          ih₂ h.sides.2 _ hd.sides.2 hr]
    | all conds => exact absurd heq (Cond.chars_greater_ne_chars_all h hd)
  all conds ih h d hd heq := by
    cases d with
    | const value => cases hd.isConst
    | greater lhs rhs => exact absurd heq.symm (Cond.chars_greater_ne_chars_all hd h)
    | all conds' =>
        have hconds := map_eq_map_of_map_eq_map
          (fun c hc d hd' heq => ih c hc (h.conds c hc) d (hd.conds d hd') heq)
          (Cond.chars_all_inj h hd heq)
        rw [Cond.eraseKinds, Cond.eraseKinds, Cond.eraseKindsList_eq, Cond.eraseKindsList_eq,
          hconds]

/-- Every tree is readable. -/
theorem Expr.readable (e : Expr K) : e.Readable := Expr.induct readableSteps e

/-- **Texts are unambiguous**: canonical trees without values that are not numbers, whose parameters
and fields have proper names, have the same text exactly if they are the same apart from the kinds
of the parameters. -/
theorem Expr.text_unambiguous {e f : Expr K} (he : e.Canonical) (hf : f.Canonical)
    (hle : e.All Expr.Legible) (hlf : f.All Expr.Legible) :
    e.text = f.text ↔ e.eraseKinds = f.eraseKinds := by
  constructor
  · intro h
    have hchars : e.chars Precedence.any = f.chars Precedence.any := by
      rw [← Expr.toList_text, ← Expr.toList_text, h]
    exact e.readable.of_chars (by decide) (fun t ht => ⟨he t ht, hle t ht⟩)
      (fun t ht => ⟨hf t ht, hlf t ht⟩) hchars
  · intro h
    rw [← e.text_eraseKinds, h, f.text_eraseKinds]

/-- The kind of a parameter does not show in the text of a power of it, but a pair of parentheses
does. -/
theorem Expr.text_unambiguous_cubes :
    let cube (kind : SymbolKind) : Expr Float :=
      .prod [.num (-2), .power (.symbol ⟨"k", kind⟩) (.num 3)]
    let whole : Expr Float := .power (.prod [.num (-2), .symbol ⟨"k", .real⟩]) (.num 3)
    (cube .real).text = (cube .integer).text ∧ (cube .real).text ≠ whole.text := by
  intro cube whole
  have hcanonical (kind : SymbolKind) : (cube kind).Canonical := by
    cases kind <;> decide
  have hlegible (kind : SymbolKind) : (cube kind).All Expr.Legible := by
    unfold Expr.All
    cases kind <;> decide +kernel
  have hwhole : whole.Canonical := by decide
  have hlegible' : whole.All Expr.Legible := by
    unfold Expr.All
    decide +kernel
  have hkinds := text_unambiguous (hcanonical .real) (hcanonical .integer) (hlegible _) (hlegible _)
  refine ⟨hkinds.2 rfl, fun h => ?_⟩
  have herase := (text_unambiguous (hcanonical _) hwhole (hlegible _) hlegible').1 h
  cases herase

end Electrokinetics
