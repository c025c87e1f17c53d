/-
**The parameters of a kernel.**

The parameters of a collection are the names that its values mention and no subexpression defines.
Subexpressions are evaluated one after another over the bindings of the caller, so a subexpression
that mentions its own name or the name of a later one takes that value from the caller too, although
the name is no parameter.  With these names added, the list is complete: no other binding matters,
and where all of them are bound no parameter is missing.  Nothing has to be added when every
subexpression mentions only defined names that come before it.

Main definitions:

* `Collection.earlyNames` — names that are mentioned before they are defined;
* `Collection.lookups` — the parameters and the early names;
* `Collection.KnownBefore` — every name is known when it is looked up.

Main results:

* `Collection.earlyNames_eq_nil_iff` — subexpressions that stand in order;
* `Collection.knownBefore_lookups` — looking a name up finds it among the lookups, or bound;
* `Collection.evalAt_determined_by_lookups` — the list of lookups is complete;
* `Collection.outOfOrder_parameters` — the list of parameters alone is not.
-/

import Electrokinetics.Proofs.Collection
import Electrokinetics.Proofs.Expr.Lookup
import Electrokinetics.Scalar.Double

set_option relaxedAutoImplicit false
set_option autoImplicit false

namespace Electrokinetics

namespace Expr

variable {K : Type}

/-- The names of the parameters of an expression. -/
def names (e : Expr K) : List String := e.symbols.map Symbol.name

theorem mem_names_of_mem_symbols {e : Expr K} {s : Symbol} (h : s ∈ e.symbols) :
    s.name ∈ e.names :=
  List.mem_map_of_mem h

end Expr

namespace Collection

/-! ### Names before their definition -/

section Names

variable {K : Type}

/-- The names that some subexpression mentions and that only it or a later one defines. -/
def earlyNames : List (Subexpression K) → List String
  | [] => []
  | s :: rest =>
    s.value.names.filter (· ∈ (s :: rest).map Subexpression.name) ++ earlyNames rest

/-- The names that evaluation may look up among the bindings of the caller. -/
def lookups (c : Collection K) : List String :=
  c.parameters.map Symbol.name ++ earlyNames c.subexpressions

theorem mem_earlyNames_cons {s : Subexpression K} {rest : List (Subexpression K)} {name : String} :
    name ∈ earlyNames (s :: rest) ↔
      (name ∈ s.value.names ∧ (name = s.name ∨ name ∈ rest.map Subexpression.name)) ∨
        name ∈ earlyNames rest := by
  simp [earlyNames]

/-- There are no early names if every subexpression mentions only names of those before it. -/
theorem earlyNames_eq_nil_iff {subexpressions : List (Subexpression K)} :
    earlyNames subexpressions = [] ↔
      ∀ before s after, subexpressions = before ++ s :: after →
        ∀ name ∈ s.value.names, name ∉ (s :: after).map Subexpression.name := by
  induction subexpressions with
  | nil => simp [earlyNames]
  | cons s rest ih =>
      rw [earlyNames, List.append_eq_nil_iff, ih, List.filter_eq_nil_iff]
      simp only [decide_eq_true_eq]
      constructor
      · rintro ⟨hhead, htail⟩ before s' after h
        cases before with
        | nil =>
            cases h
            exact hhead
        | cons first before =>
            cases h
            exact htail before s' after rfl
      · intro h
        refine ⟨h [] s rest rfl, fun before s' after hrest => ?_⟩
        exact h (s :: before) s' after (congrArg (s :: ·) hrest)

end Names

/-! ### Names that are known -/

section Known

variable {K : Type} {main : List (Assignment K)}

/-- Names that are known at the start, together with those that are defined on the way, are all that
is looked up. -/
def KnownBefore (main : List (Assignment K)) : (String → Prop) → List (Subexpression K) → Prop
  | known, [] => ∀ a ∈ main, ∀ s ∈ a.value.symbols, known s.name
  | known, s :: rest =>
    (∀ p ∈ s.value.symbols, known p.name) ∧
      KnownBefore main (fun name => name = s.name ∨ known name) rest

theorem knownBefore_of_earlyNames {known : String → Prop} {subexpressions : List (Subexpression K)}
    (hvalues : ∀ s ∈ subexpressions, ∀ p ∈ s.value.symbols,
      known p.name ∨ p.name ∈ subexpressions.map Subexpression.name)
    (hmain : ∀ a ∈ main, ∀ p ∈ a.value.symbols,
      known p.name ∨ p.name ∈ subexpressions.map Subexpression.name)
    (hearly : ∀ name ∈ earlyNames subexpressions, known name) :
    KnownBefore main known subexpressions := by
  induction subexpressions generalizing known with
  | nil => exact fun a ha p hp => (hmain a ha p hp).resolve_right List.not_mem_nil
  | cons s rest ih =>
      -- A name that is not defined yet is an early name here.
      have hhead : ∀ p ∈ s.value.symbols, known p.name := by
        intro p hp
        rcases hvalues s List.mem_cons_self p hp with hknown | hlater
        · exact hknown
        · refine hearly _ (mem_earlyNames_cons.2 (.inl ⟨Expr.mem_names_of_mem_symbols hp, ?_⟩))
          exact List.mem_cons.1 hlater
      have hstep : ∀ name : String, known name ∨ name ∈ (s :: rest).map Subexpression.name →
          (name = s.name ∨ known name) ∨ name ∈ rest.map Subexpression.name := by
        intro name h
        rw [List.map_cons, List.mem_cons] at h
        tauto
      refine ⟨hhead, ih ?_ ?_ ?_⟩
      · exact fun t ht p hp => hstep _ (hvalues t (List.mem_cons_of_mem _ ht) p hp)
      · exact fun a ha p hp => hstep _ (hmain a ha p hp)
      · exact fun name h => .inr (hearly name (mem_earlyNames_cons.2 (.inr h)))

/-- Whatever is looked up is one of the lookups, or bound before. -/
theorem knownBefore_lookups (c : Collection K) :
    KnownBefore c.main (· ∈ c.lookups) c.subexpressions := by
  have hmentioned : ∀ e ∈ c.values, ∀ p ∈ e.symbols, p.name ∈ c.lookups ∨ p.name ∈ c.names := by
    intro e he p hp
    by_cases hdefined : p.name ∈ c.names
    · exact .inr hdefined
    · have hparameter : p ∈ c.parameters := mem_parameters.2 ⟨⟨e, he, hp⟩, hdefined⟩
      exact .inl (List.mem_append_left _ (List.mem_map_of_mem hparameter))
  refine knownBefore_of_earlyNames ?_ ?_ fun name h => List.mem_append_right _ h
  · exact fun s hs => hmentioned _ (List.mem_append_left _ (List.mem_map_of_mem hs))
  · exact fun a ha => hmentioned _ (List.mem_append_right _ (List.mem_map_of_mem ha))

end Known

/-! ### Bindings that matter -/

variable {K : Type} {known : String → Prop} {b b' : Bindings K}

/-- Binding a name keeps an agreement, which then extends to that name. -/
theorem agree_insert (h : ∀ name, known name → b.get? name = b'.get? name) (bound : String)
    (v : K) (name : String) (hname : name = bound ∨ known name) :
    (b.insert bound v).get? name = (b'.insert bound v).get? name := by
  rw [Bindings.get?_insert, Bindings.get?_insert]
  split
  · rfl
  · rename_i hne
    exact h name (hname.resolve_left hne)

variable [Scalar K] {main : List (Assignment K)} {fields : FieldValues K} {x : Cell}

theorem evalAt_congr_of_known {subexpressions : List (Subexpression K)}
    (hknown : KnownBefore main known subexpressions)
    (h : ∀ name, known name → b.get? name = b'.get? name) :
    (bindAll ⟨fields, b, x⟩ subexpressions >>= fun env => evalMain env main) =
      bindAll ⟨fields, b', x⟩ subexpressions >>= fun env => evalMain env main := by
  induction subexpressions generalizing known b b' with
  | nil =>
      refine evalMain_congr fun a ha => Expr.eval_congr_bindings fun s hs => ?_
      exact h s.name (hknown a ha s hs)
  | cons s rest ih =>
      obtain ⟨hhead, htail⟩ := hknown
      have hvalue : s.value.eval ⟨fields, b, x⟩ = s.value.eval ⟨fields, b', x⟩ :=
        Expr.eval_congr_bindings fun p hp => h p.name (hhead p hp)
      rw [bindAll, bindAll, hvalue, bind_assoc, bind_assoc]
      refine bind_congr fun v => ?_
      exact ih htail (agree_insert h s.symbol.name v)

/-! ### Parameters that are missing -/

theorem failsOnly_evalMain {Q : EvalError K → Prop} {env : Env K}
    (h : ∀ a ∈ main, FailsOnly Q (a.value.eval env)) : FailsOnly Q (evalMain env main) := by
  induction main with
  | nil => exact .ok _
  | cons a rest ih =>
      obtain ⟨hhead, htail⟩ := List.forall_mem_cons.1 h
      exact hhead.bind fun _ => (ih htail).bind fun _ => .ok _

theorem unboundOnly_of_known {Q : String → Prop} {subexpressions : List (Subexpression K)}
    (hknown : KnownBefore main known subexpressions)
    (h : ∀ name, known name → b.get? name = none → Q name) :
    UnboundOnly Q (bindAll ⟨fields, b, x⟩ subexpressions >>= fun env => evalMain env main) := by
  induction subexpressions generalizing known b with
  | nil =>
      refine UnboundOnly.iff_failsOnly.2 (failsOnly_evalMain fun a ha => ?_)
      refine UnboundOnly.iff_failsOnly.1 (Expr.unboundOnly_eval fun s hs => ?_)
      exact h s.name (hknown a ha s hs)
  | cons s rest ih =>
      obtain ⟨hhead, htail⟩ := hknown
      have hvalue : UnboundOnly Q (s.value.eval ⟨fields, b, x⟩) :=
        Expr.unboundOnly_eval fun p hp => h p.name (hhead p hp)
      rw [bindAll, bind_assoc]
      refine hvalue.bind fun v => ih htail fun name hname hnone => ?_
      -- The name that was just bound has a value.
      rw [Bindings.get?_insert] at hnone
      split at hnone
      · cases hnone
      · rename_i hne
        exact h name (hname.resolve_left hne) hnone

/-- A parameter that evaluation misses is one of the lookups and has no value. -/
theorem unboundOnly_evalAt (c : Collection K) :
    UnboundOnly (fun name => name ∈ c.lookups ∧ b.get? name = none) (c.evalAt fields b x) :=
  unboundOnly_of_known (knownBefore_lookups c) fun _ hname hnone => ⟨hname, hnone⟩

/-! ### Complete lists -/

/-- **Completeness of the lookups**: bindings that agree on them give the same result, be it values
or a fault, and where all of them are bound no parameter is missing. -/
theorem evalAt_determined_by_lookups (c : Collection K) (fields : FieldValues K) (x : Cell)
    (b b' : Bindings K) (h : ∀ name ∈ c.lookups, b.get? name = b'.get? name) :
    c.evalAt fields b x = c.evalAt fields b' x ∧
      ((∀ name ∈ c.lookups, (b.get? name).isSome) →
        ∀ name, c.evalAt fields b x ≠ .error (.unboundSymbol name)) := by
  refine ⟨evalAt_congr_of_known (knownBefore_lookups c) h, fun hbound name hunbound => ?_⟩
  obtain ⟨hname, hnone⟩ := unboundOnly_evalAt c name hunbound
  have hsome := hbound name hname
  rw [hnone] at hsome
  cases hsome

/-- A kernel with a subexpression that mentions its own name. -/
def selfReference : Collection Float where
  main := [⟨⟨"c", 0, 0⟩, .prod [.symbol ⟨"a", .real⟩, .symbol ⟨"D", .real⟩]⟩]
  subexpressions := [⟨⟨"a", .real⟩, .sum [.symbol ⟨"a", .real⟩, .symbol ⟨"k", .real⟩]⟩]
  nodup_targets := by decide
  nodup_names := by decide

theorem lookups_selfReference : selfReference.lookups = ["k", "D", "a"] := by decide

/-- The order of the bindings and a binding of another name do not matter. -/
theorem evalAt_selfReference_determined :
    selfReference.evalAt (fun _ _ _ => none) (.ofList [("a", 1), ("k", 2), ("D", 3)]) 0 =
        selfReference.evalAt (fun _ _ _ => none)
          (.ofList [("z", 0), ("D", 3), ("k", 2), ("a", 1)]) 0 ∧
      ∀ name, selfReference.evalAt (fun _ _ _ => none) (.ofList [("a", 1), ("k", 2), ("D", 3)]) 0 ≠
        .error (.unboundSymbol name) := by
  have hlookups := lookups_selfReference
  obtain ⟨hsame, hbound⟩ := evalAt_determined_by_lookups selfReference (fun _ _ _ => none) 0
    (.ofList [("a", 1), ("k", 2), ("D", 3)]) (.ofList [("z", 0), ("D", 3), ("k", 2), ("a", 1)]) (by
      rw [hlookups]
      simp only [List.forall_mem_cons]
      exact ⟨rfl, rfl, rfl, by simp⟩)
  refine ⟨hsame, hbound ?_⟩
  rw [hlookups]
  decide

/-- A kernel with two subexpressions, of which the first mentions the second. -/
def outOfOrder : Collection Float where
  main := [⟨⟨"c", 0, 0⟩, .symbol ⟨"a", .real⟩⟩]
  subexpressions := [⟨⟨"a", .real⟩, .symbol ⟨"b", .real⟩⟩, ⟨⟨"b", .real⟩, .num 1⟩]
  nodup_targets := by decide
  nodup_names := by decide

/-- The kernel has no parameters, and yet it needs a value of `b` and writes it. -/
theorem outOfOrder_parameters :
    outOfOrder.parameters = [] ∧
      outOfOrder.evalAt (fun _ _ _ => none) (.ofList [("b", 5)]) 0 = .ok [(⟨"c", 0, 0⟩, 5)] ∧
      outOfOrder.evalAt (fun _ _ _ => none) ∅ 0 = .error (.unboundSymbol "b") :=
  ⟨by decide, rfl, rfl⟩

end Collection

end Electrokinetics
