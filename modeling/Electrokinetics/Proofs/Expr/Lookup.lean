/-
**What evaluation looks up.**

Evaluation looks at its surroundings at three kinds of nodes only: parameters, field reads and
coordinates.  Where these have the same results, faults included, so has the whole expression, and
where they keep their values, so does the expression.  So the reads and the parameters that an
expression declares are complete: nothing else is looked up in a field or among the bindings.  In
particular a fault for a parameter without a value comes from a parameter of the expression.

Main definitions:

* `Expr.isLookup` — the nodes that look at the surroundings;
* `Expr.RelatedAt` — a node has related results in two surroundings;
* `FailsOnly` — a computation fails with some faults only;
* `UnboundOnly` — a computation finds no other parameters without a value.

Main results:

* `Expr.related_eval` — results that are related at the lookups are related, with `Expr.keeps_eval`
  and `Expr.eval_congr` for values and for results;
* `Expr.eval_determined_by_reads_and_parameters` — the declared reads and parameters are complete;
* `Expr.failsOnly_eval` — where the faults of an expression come from;
* `Expr.unboundOnly_eval` — where a fault for a parameter comes from.
-/

import Electrokinetics.Proofs.Expr.Keeps
import Electrokinetics.Proofs.Expr.Nodes
import Electrokinetics.Scalar.Double

set_option relaxedAutoImplicit false
set_option autoImplicit false

namespace Electrokinetics

/-! ### Related results -/

namespace Expr

section

variable {K : Type}

/-- Whether a node looks at bindings, at fields or at the current cell. -/
def isLookup : Expr K → Bool
  | .symbol _ => true
  | .access _ => true
  | .counter _ => true
  | _ => false

end

variable {K : Type} [Scalar K] {env env' : Env K}
  {R : ∀ α : Type, Except (EvalError K) α → Except (EvalError K) α → Prop}

/-- A node has related results in two surroundings if it is one of some nodes. -/
def RelatedAt (R : ∀ α : Type, Except (EvalError K) α → Except (EvalError K) α → Prop)
    (p : Expr K → Bool) (env env' : Env K) (t : Expr K) : Prop :=
  p t = true → R K (t.eval env) (t.eval env')

theorem related_evalList (hR : Composable (EvalError K) R) {es : List (Expr K)}
    (h : ∀ e ∈ es, R K (e.eval env) (e.eval env')) :
    R (List K) (evalList env es) (evalList env' es) := by
  induction es with
  | nil => exact hR.refl _
  | cons e es ih =>
      obtain ⟨hhead, htail⟩ := List.forall_mem_cons.1 h
      exact hR.bind hhead fun _ => hR.bind (ih htail) fun _ => hR.refl _

theorem related_evalAll (hR : Composable (EvalError K) R) {cs : List (Cond K)}
    (h : ∀ c ∈ cs, R Bool (c.eval env) (c.eval env')) :
    R Bool (Cond.evalAll env cs) (Cond.evalAll env' cs) := by
  induction cs with
  | nil => exact hR.refl _
  | cons c cs ih =>
      obtain ⟨hhead, htail⟩ := List.forall_mem_cons.1 h
      refine hR.bind hhead fun holds => ?_
      cases holds with
      | true => exact ih htail
      | false => exact hR.refl _

/-- The induction behind `Expr.related_eval`. -/
theorem relatedSteps (hR : Composable (EvalError K) R) {p : Expr K → Bool}
    (hp : ∀ t : Expr K, t.isLookup = true → p t = true) : Expr.InductionSteps (K := K)
    (fun e => e.All (RelatedAt R p env env') → R K (e.eval env) (e.eval env'))
    (fun c => c.All (RelatedAt R p env env') → R Bool (c.eval env) (c.eval env')) where
  num value _ := hR.refl _
  symbol s h := h.self (hp _ rfl)
  access a h := h.self (hp _ rfl)
  counter axis h := h.self (hp _ rfl)
  sum terms ih h :=
    hR.bind (related_evalList hR fun e he => ih e he ((all_sum.1 h).2 e he)) fun _ => hR.refl _
  prod factors ih h :=
    hR.bind (related_evalList hR fun e he => ih e he ((all_prod.1 h).2 e he)) fun _ => hR.refl _
  power base exponent ih₁ ih₂ h := by
    obtain ⟨-, h₁, h₂⟩ := all_power.1 h
    exact hR.bind (ih₁ h₁) fun _ => hR.bind (ih₂ h₂) fun _ => hR.refl _
  call g args ih h :=
    hR.bind (related_evalList hR fun e he => ih e he ((all_call.1 h).2 e he)) fun _ => hR.refl _
  modulo value modulus ih₁ ih₂ h := by
    obtain ⟨-, h₁, h₂⟩ := all_modulo.1 h
    refine hR.bind (ih₂ h₂) fun m => ?_
    split
    · exact hR.refl _
    · exact hR.bind (ih₁ h₁) fun _ => hR.refl _
  deriv arg axis _ _ := hR.refl (.error (.undiscretizedDerivative axis))
  select cond whenTrue whenFalse ihc ih₁ ih₂ h := by
    obtain ⟨-, hc, h₁, h₂⟩ := all_select.1 h
    refine hR.bind (ihc hc) fun holds => ?_
    cases holds with
    | true => exact ih₁ h₁
    | false => exact ih₂ h₂
  random key ihcounters iht ihs h := by
    -- A draw may be one of the nodes that are taken as a whole.
    by_cases hkey : p (random key) = true
    · exact h.self hkey
    · obtain ⟨-, hcounters, ht, hs⟩ := all_random.1 h
      obtain ⟨⟨x, y, z⟩, channel, timeStep, seed⟩ := key
      refine hR.bind (ihcounters .x (hcounters .x)) fun _ => hR.bind (hR.refl _) fun _ => ?_
      refine hR.bind (ihcounters .y (hcounters .y)) fun _ => hR.bind (hR.refl _) fun _ => ?_
      refine hR.bind (ihcounters .z (hcounters .z)) fun _ => hR.bind (hR.refl _) fun _ => ?_
      refine hR.bind (iht ht) fun _ => hR.bind (hR.refl _) fun _ => ?_
      exact hR.bind (ihs hs) fun _ => hR.refl _
  const value _ := hR.refl _
  greater lhs rhs ih₁ ih₂ h := by
    obtain ⟨h₁, h₂⟩ := Cond.all_greater.1 h
    exact hR.bind (ih₁ h₁) fun _ => hR.bind (ih₂ h₂) fun _ => hR.refl _
  all conds ih h := related_evalAll hR fun c hc => ih c hc (Cond.all_all.1 h c hc)

/-- Where everything that is looked up has related results, so has the expression. -/
theorem related_eval (hR : Composable (EvalError K) R) {p : Expr K → Bool}
    (hp : ∀ t : Expr K, t.isLookup = true → p t = true) {e : Expr K}
    (h : e.All (RelatedAt R p env env')) : R K (e.eval env) (e.eval env') :=
  Expr.induct (relatedSteps hR hp) e h

/-- Where everything that is looked up keeps its value, so does the expression. -/
theorem keeps_eval {e : Expr K}
    (h : ∀ t ∈ e.subterms, t.isLookup = true → Keeps (t.eval env) (t.eval env')) :
    Keeps (e.eval env) (e.eval env') :=
  related_eval composable_keeps (fun _ hlookup => hlookup) h

/-- An expression without coordinates has the same value in two surroundings that agree, as seen from
the current cells. -/
theorem keeps_eval_of_fields {e : Expr K} (hcounter : e.hasCounter = false)
    {fields fields' : FieldValues K} {b : Bindings K} {x y : Cell}
    (h : ∀ field component n, fields' field component (y + n) = fields field component (x + n)) :
    Keeps (e.eval ⟨fields, b, x⟩) (e.eval ⟨fields', b, y⟩) := by
  refine keeps_eval fun t ht hlookup => ?_
  cases t with
  | symbol s => exact Keeps.refl _
  | access a => exact keeps_access (h _ _ _)
  | counter axis => exact absurd ht (counter_notMem_subterms hcounter axis)
  | _ => cases hlookup

/-! ### The same results -/

/-- A node has the same result in two surroundings if it looks at them. -/
def SameLookup (env env' : Env K) (t : Expr K) : Prop :=
  t.isLookup = true → t.eval env = t.eval env'

/-- Where everything that is looked up has the same results, so has the expression. -/
theorem eval_congr {e : Expr K} (h : e.All (SameLookup env env')) : e.eval env = e.eval env' :=
  related_eval composable_eq (fun _ hlookup => hlookup) h

/-- Field sources that agree at the reads of an expression, and bindings that agree on its parameters,
are the same to everything that it looks up. -/
theorem all_sameLookup {e : Expr K} (hcell : env.cell = env'.cell)
    (hfields : ∀ a ∈ e.accesses, env.fields a.field a.component (env.cell + a.offset) =
      env'.fields a.field a.component (env.cell + a.offset))
    (hbindings : ∀ s ∈ e.symbols, env.bindings.get? s.name = env'.bindings.get? s.name) :
    e.All (SameLookup env env') := by
  intro t ht hlookup
  cases t with
  | symbol s => simp only [eval, hbindings s (mem_symbols.2 ht)]
  | access a =>
      -- A fault names the cell that was read, so it matters that the cell is the same.
      have hread := hfields a (mem_accesses.2 ht)
      simp only [eval, ← hcell, hread]
  | counter axis => simp only [eval, hcell]
  | _ => cases hlookup

/-- Bindings matter only at the parameters of an expression. -/
theorem eval_congr_bindings {e : Expr K} {fields : FieldValues K} {b b' : Bindings K} {x : Cell}
    (h : ∀ s ∈ e.symbols, b.get? s.name = b'.get? s.name) :
    e.eval ⟨fields, b, x⟩ = e.eval ⟨fields, b', x⟩ :=
  eval_congr (all_sameLookup rfl (fun _ _ => rfl) h)

/-- Fields matter only at the reads of an expression. -/
theorem eval_congr_reads {e : Expr K} {fields fields' : FieldValues K} {b : Bindings K} {x : Cell}
    (h : ∀ a ∈ e.accesses, fields a.field a.component (x + a.offset) =
      fields' a.field a.component (x + a.offset)) :
    e.eval ⟨fields, b, x⟩ = e.eval ⟨fields', b, x⟩ :=
  eval_congr (all_sameLookup rfl h fun _ _ => rfl)

/-- Fields do not matter to an expression that reads none. -/
theorem eval_congr_fields {e : Expr K} (h : e.hasAccess = false) (fields fields' : FieldValues K)
    (b : Bindings K) (x : Cell) : e.eval ⟨fields, b, x⟩ = e.eval ⟨fields', b, x⟩ :=
  eval_congr_reads fun a ha => absurd (mem_accesses.1 ha) (access_notMem_subterms h a)

/-- **The reads and the parameters of an expression are all that evaluation looks up**: at one cell,
field sources that agree at the reads and bindings that agree on the parameters give the same result,
be it the value or the fault. -/
theorem eval_determined_by_reads_and_parameters (e : Expr K) (env env' : Env K)
    (hcell : env.cell = env'.cell)
    (hfields : ∀ a ∈ e.accesses, env.fields a.field a.component (env.cell + a.offset) =
      env'.fields a.field a.component (env.cell + a.offset))
    (hbindings : ∀ s ∈ e.symbols, env.bindings.get? s.name = env'.bindings.get? s.name) :
    e.eval env = e.eval env' :=
  eval_congr (all_sameLookup hcell hfields hbindings)

/-- A draw behind a condition, with a read in its key, and a remainder otherwise. -/
def gatedDraw : Expr Float :=
  .select (.greater (.access ⟨"c", 0, ⟨1, 0, 0⟩⟩) (.symbol ⟨"D", .real⟩))
    (.random ⟨⟨.access ⟨"k", 2, 0⟩, .counter .y, .num 1⟩, 0, .symbol ⟨"t", .integer⟩, .num 7⟩)
    (.modulo (.symbol ⟨"z", .real⟩) (.num 2))

/-- Values at the two places that the draw reads from a cell, and some value at all others. -/
def readsOfDraw (elsewhere : Option Float) : FieldValues Float := fun field component y =>
  if (field, component, y) = ("c", 0, ⟨4, -1, 2⟩) then some 3
  else if (field, component, y) = ("k", 2, ⟨3, -1, 2⟩) then some 5
  else elsewhere

/-- What is stored elsewhere, other bindings and their order do not matter to the draw. -/
theorem eval_gatedDraw_determined :
    gatedDraw.eval ⟨readsOfDraw none, .ofList [("D", 0), ("t", 4), ("z", 1)], ⟨3, -1, 2⟩⟩ =
      gatedDraw.eval
        ⟨readsOfDraw (some 9), .ofList [("a", 2), ("z", 1), ("t", 4), ("D", 0)], ⟨3, -1, 2⟩⟩ := by
  have haccesses : gatedDraw.accesses = [⟨"c", 0, ⟨1, 0, 0⟩⟩, ⟨"k", 2, 0⟩] := by decide
  have hsymbols : gatedDraw.symbols = [⟨"D", .real⟩, ⟨"t", .integer⟩, ⟨"z", .real⟩] := by decide
  refine eval_determined_by_reads_and_parameters gatedDraw _ _ rfl ?_ ?_
  · rw [haccesses]
    simp only [List.forall_mem_cons]
    exact ⟨rfl, rfl, by simp⟩
  · rw [hsymbols]
    simp only [List.forall_mem_cons]
    exact ⟨rfl, rfl, rfl, by simp⟩

end Expr

/-! ### Faults -/

/-- A computation fails with faults of some kind only. -/
def FailsOnly {K α : Type} (Q : EvalError K → Prop) (x : Except (EvalError K) α) : Prop :=
  ∀ e, x = .error e → Q e

namespace FailsOnly

variable {K α β : Type} {Q : EvalError K → Prop}

theorem ok (a : α) : FailsOnly Q (.ok a : Except (EvalError K) α) := fun _ h => by cases h

theorem error {e : EvalError K} (h : Q e) : FailsOnly Q (.error e : Except (EvalError K) α) :=
  fun _ he => Except.error.inj he ▸ h

theorem bind {x : Except (EvalError K) α} {f : α → Except (EvalError K) β} (hx : FailsOnly Q x)
    (hf : ∀ a, FailsOnly Q (f a)) : FailsOnly Q (x >>= f) := by
  cases x with
  | error e => exact fun _ h => hx _ (congrArg Except.error (Except.error.inj h))
  | ok a => exact hf a

end FailsOnly

/-- The faults of computing with values: keys, moduli and numbers of arguments. -/
structure CoversComputing {K : Type} (Q : EvalError K → Prop) : Prop where
  key : ∀ part fault, Q (.invalidRandomKey part fault)
  modulo : Q .moduloByZero
  arity : ∀ f found, Q (.badArity f found)

namespace Expr

variable {K : Type} [Scalar K] {env : Env K} {Q : EvalError K → Prop}

open FailsOnly

theorem failsOnly_toInteger (hQ : ∀ part fault, Q (.invalidRandomKey part fault)) (part : KeyPart)
    (a : K) : FailsOnly Q (part.toInteger a) := by
  unfold KeyPart.toInteger
  split
  · exact ok _
  · exact error (hQ _ _)

theorem failsOnly_toNatural (hQ : ∀ part fault, Q (.invalidRandomKey part fault)) (part : KeyPart)
    (a : K) : FailsOnly Q (part.toNatural a) := by
  refine (failsOnly_toInteger hQ part a).bind fun i => ?_
  split
  · exact error (hQ _ _)
  · exact ok _

theorem failsOnly_evalList {es : List (Expr K)} (h : ∀ e ∈ es, FailsOnly Q (e.eval env)) :
    FailsOnly Q (evalList env es) := by
  induction es with
  | nil => exact ok _
  | cons e es ih =>
      obtain ⟨hhead, htail⟩ := List.forall_mem_cons.1 h
      exact hhead.bind fun _ => (ih htail).bind fun _ => ok _

theorem failsOnly_evalAll {cs : List (Cond K)} (h : ∀ c ∈ cs, FailsOnly Q (c.eval env)) :
    FailsOnly Q (Cond.evalAll env cs) := by
  induction cs with
  | nil => exact ok _
  | cons c cs ih =>
      obtain ⟨hhead, htail⟩ := List.forall_mem_cons.1 h
      refine hhead.bind fun holds => ?_
      cases holds with
      | true => exact ih htail
      | false => exact ok _

/-- The fault of a lookup without a value, or of a derivative, is of some kind. -/
def FailsAt (Q : EvalError K → Prop) (env : Env K) : Expr K → Prop
  | .symbol s => env.bindings.get? s.name = none → Q (.unboundSymbol s.name)
  | .access a => env.fields a.field a.component (env.cell + a.offset) = none →
      Q (.missingValue a.field a.component (env.cell + a.offset))
  | .deriv _ axis => Q (.undiscretizedDerivative axis)
  | _ => True

/-- The induction behind `Expr.failsOnly_eval`. -/
theorem failsSteps (hQ : CoversComputing Q) : Expr.InductionSteps (K := K)
    (fun e => e.All (FailsAt Q env) → FailsOnly Q (e.eval env))
    (fun c => c.All (FailsAt Q env) → FailsOnly Q (c.eval env)) where
  num value _ := ok _
  symbol s h := by
    have hbound : env.bindings.get? s.name = none → Q (.unboundSymbol s.name) := h.self
    rw [eval]
    split
    · exact ok _
    · exact error (hbound ‹_›)
  access a h := by
    have hvalue : env.fields a.field a.component (env.cell + a.offset) = none →
        Q (.missingValue a.field a.component (env.cell + a.offset)) := h.self
    rw [eval]
    split
    · exact ok _
    · exact error (hvalue ‹_›)
  counter axis _ := ok _
  sum terms ih h :=
    (failsOnly_evalList fun e he => ih e he ((all_sum.1 h).2 e he)).bind fun _ => ok _
  prod factors ih h :=
    (failsOnly_evalList fun e he => ih e he ((all_prod.1 h).2 e he)).bind fun _ => ok _
  power base exponent ih₁ ih₂ h := by
    obtain ⟨-, h₁, h₂⟩ := all_power.1 h
    exact (ih₁ h₁).bind fun _ => (ih₂ h₂).bind fun _ => ok _
  call g args ih h := by
    refine (failsOnly_evalList fun e he => ih e he ((all_call.1 h).2 e he)).bind fun values => ?_
    split
    · exact ok _
    · exact error (hQ.arity _ _)
  modulo value modulus ih₁ ih₂ h := by
    obtain ⟨-, h₁, h₂⟩ := all_modulo.1 h
    refine (ih₂ h₂).bind fun m => ?_
    split
    · exact error hQ.modulo
    · exact (ih₁ h₁).bind fun _ => ok _
  deriv arg axis _ h := error h.self
  select cond whenTrue whenFalse ihc ih₁ ih₂ h := by
    obtain ⟨-, hc, h₁, h₂⟩ := all_select.1 h
    refine (ihc hc).bind fun holds => ?_
    cases holds with
    | true => exact ih₁ h₁
    | false => exact ih₂ h₂
  random key ihcounters iht ihs h := by
    obtain ⟨-, hcounters, ht, hs⟩ := all_random.1 h
    obtain ⟨⟨x, y, z⟩, channel, timeStep, seed⟩ := key
    -- Each part is read as an integer right after it is evaluated.
    refine (ihcounters .x (hcounters .x)).bind fun _ =>
      (failsOnly_toInteger hQ.key _ _).bind fun _ => ?_
    refine (ihcounters .y (hcounters .y)).bind fun _ =>
      (failsOnly_toInteger hQ.key _ _).bind fun _ => ?_
    refine (ihcounters .z (hcounters .z)).bind fun _ =>
      (failsOnly_toInteger hQ.key _ _).bind fun _ => ?_
    refine (iht ht).bind fun _ => (failsOnly_toNatural hQ.key _ _).bind fun _ => ?_
    exact (ihs hs).bind fun _ => (failsOnly_toNatural hQ.key _ _).bind fun _ => ok _
  const value _ := ok _
  greater lhs rhs ih₁ ih₂ h := by
    obtain ⟨h₁, h₂⟩ := Cond.all_greater.1 h
    exact (ih₁ h₁).bind fun _ => (ih₂ h₂).bind fun _ => ok _
  all conds ih h := failsOnly_evalAll fun c hc => ih c hc (Cond.all_all.1 h c hc)

/-- The faults of an expression are those of its lookups and derivatives, and those of computing with
values. -/
theorem failsOnly_eval (hQ : CoversComputing Q) {e : Expr K} (h : e.All (FailsAt Q env)) :
    FailsOnly Q (e.eval env) :=
  Expr.induct (failsSteps hQ) e h

end Expr

/-! ### Parameters without a value -/

/-- A computation finds no parameters without a value but some of those with a property. -/
def UnboundOnly {K α : Type} (Q : String → Prop) (x : Except (EvalError K) α) : Prop :=
  ∀ name, x = .error (.unboundSymbol name) → Q name

namespace UnboundOnly

variable {K α β : Type} {Q : String → Prop}

theorem iff_failsOnly {x : Except (EvalError K) α} :
    UnboundOnly Q x ↔ FailsOnly (fun e => ∀ name, e = .unboundSymbol name → Q name) x := by
  constructor
  · rintro h e he name rfl
    exact h name he
  · intro h name he
    exact h _ he name rfl

theorem bind {x : Except (EvalError K) α} {f : α → Except (EvalError K) β} (hx : UnboundOnly Q x)
    (hf : ∀ a, UnboundOnly Q (f a)) : UnboundOnly Q (x >>= f) :=
  iff_failsOnly.2 ((iff_failsOnly.1 hx).bind fun a => iff_failsOnly.1 (hf a))

end UnboundOnly

namespace Expr

variable {K : Type} [Scalar K] {env : Env K} {Q : String → Prop}

/-- An expression finds no parameters without a value but its own. -/
theorem unboundOnly_eval {e : Expr K}
    (h : ∀ s ∈ e.symbols, env.bindings.get? s.name = none → Q s.name) :
    UnboundOnly Q (e.eval env) := by
  refine UnboundOnly.iff_failsOnly.2 (failsOnly_eval ⟨?_, ?_, ?_⟩ fun t ht => ?_)
  · rintro part fault name ⟨⟩
  · rintro name ⟨⟩
  · rintro f found name ⟨⟩
  cases t with
  | symbol s =>
      rintro hnone name ⟨⟩
      exact h s (mem_symbols.2 ht) hnone
  | access a => rintro - name ⟨⟩
  | deriv arg axis => rintro name ⟨⟩
  | _ => trivial

end Expr

end Electrokinetics
