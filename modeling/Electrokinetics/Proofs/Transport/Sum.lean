/-
**The sum of two fluxes.**

The sum of two fluxes puts the subexpressions of the second after those of the first and adds the
values face by face.  Both lists of names then live in one scope, which refuses a name that is defined
twice but not one that is defined on one side and is a parameter of the other.  Such a parameter is
captured: the sum takes the defined value for it, and what it writes is not the sum of the two fluxes.
Where nothing is captured the sum of fluxes is the sum of their values.

Main definitions:

* `Collection.Uncaptured` — no value of one flux can see a name that only the other one defines.

Main results:

* `addFluxes_eq_ok_iff` — when there is a sum, and what it consists of;
* `Collection.bindAll_congr` — subexpressions after other ones, of which they see nothing;
* `addFluxes_keeps_sums` — the values of the sum;
* `addFluxes_captures` — a parameter that is captured.
-/

import Electrokinetics.Proofs.Expr.Value
import Electrokinetics.Proofs.Parameters
import Electrokinetics.Proofs.Scalar.Real
import Electrokinetics.Proofs.Transport.Faces

set_option relaxedAutoImplicit false
set_option autoImplicit false

namespace Electrokinetics

/-! ### When there is a sum -/

section Construction

variable {K : Type}

theorem Collection.length_main_eq {c d : Collection K} (h : c.targets = d.targets) :
    c.main.length = d.main.length := by
  simpa [targets] using congrArg List.length h

/-- Two fluxes have a sum if they write the same faces in the same order and no name is defined
twice; the last is part of being a collection. -/
theorem addFluxes_eq_ok_iff [Scalar K] {adv diff sum : Collection K} :
    addFluxes adv diff = .ok sum ↔
      adv.targets = diff.targets ∧ sum.main = addValues adv.main diff.main ∧
        sum.subexpressions = adv.subexpressions ++ diff.subexpressions := by
  rw [addFluxes]
  by_cases hlength : adv.main.length = diff.main.length
  · rw [dif_pos hlength]
    have halign := firstMisaligned?_eq_none_iff hlength 0
    cases hfirst : firstMisaligned? 0 adv.main diff.main with
    | none =>
        refine Collection.withSubexpressions_eq_ok_iff.trans ?_
        exact (and_iff_right (halign.1 hfirst)).symm
    | some misaligned =>
        refine iff_of_false (fun h => by cases h) fun h => ?_
        rw [halign.2 h.1] at hfirst
        cases hfirst
  · rw [dif_neg hlength]
    exact iff_of_false (fun h => by cases h) fun h => hlength (Collection.length_main_eq h.1)

/-- The checks are the only way to fail. -/
theorem exists_addFluxes [Scalar K] {adv diff : Collection K} (htargets : adv.targets = diff.targets)
    (hnames : (adv.names ++ diff.names).Nodup) : ∃ sum, addFluxes adv diff = .ok sum := by
  refine ⟨⟨addValues adv.main diff.main, adv.subexpressions ++ diff.subexpressions, ?_, ?_⟩, ?_⟩
  · rw [map_target_addValues (Collection.length_main_eq htargets)]
    exact adv.nodup_targets
  · rw [List.map_append]
    exact hnames
  · exact addFluxes_eq_ok_iff.2 ⟨htargets, rfl, rfl⟩

end Construction

/-! ### Subexpressions in one scope -/

namespace Collection

section Scope

variable {K : Type} [Scalar K] {fields : FieldValues K} {x : Cell}

theorem bindAll_append (env : Env K) (first second : List (Subexpression K)) :
    bindAll env (first ++ second) = bindAll env first >>= fun env => bindAll env second := by
  induction first generalizing env with
  | nil => rfl
  | cons s rest ih =>
      rw [List.cons_append, bindAll, bindAll, bind_assoc]
      exact bind_congr fun v => ih _

/-- Bindings that agree on all that subexpressions mention give the same values of them, and so they
agree on what is defined as well. -/
theorem bindAll_congr (known : String → Prop) {subexpressions : List (Subexpression K)}
    {b b' c : Bindings K}
    (hknown : ∀ s ∈ subexpressions, ∀ p ∈ s.value.symbols, known p.name)
    (hagree : ∀ name, known name → b.get? name = b'.get? name)
    (h : bindAll ⟨fields, b, x⟩ subexpressions = .ok ⟨fields, c, x⟩) :
    ∃ c', bindAll ⟨fields, b', x⟩ subexpressions = .ok ⟨fields, c', x⟩ ∧
      ∀ name, known name → c.get? name = c'.get? name := by
  induction subexpressions generalizing known b b' with
  | nil =>
      cases h
      exact ⟨b', rfl, hagree⟩
  | cons s rest ih =>
      obtain ⟨hhead, htail⟩ := List.forall_mem_cons.1 hknown
      obtain ⟨v, hv, hrest⟩ := bind_eq_ok.1 h
      have hv' : s.value.eval ⟨fields, b', x⟩ = .ok v := by
        rw [← hv]
        exact (Expr.eval_congr_bindings fun p hp => hagree p.name (hhead p hp)).symm
      obtain ⟨c', hc', hagree'⟩ := ih (fun name => name = s.symbol.name ∨ known name)
        (fun t ht p hp => .inr (htail t ht p hp)) (agree_insert hagree s.symbol.name v) hrest
      exact ⟨c', bind_eq_ok.2 ⟨v, hv', hc'⟩, fun name hname => hagree' name (.inr hname)⟩

end Scope

/-- In the scope of the sum, no value of the second flux can see a name that the first one defines,
and no flux of the first one can see a name that the second one defines.  The subexpressions of the
first flux come before everything of the second, so that these see nothing in any case. -/
structure Uncaptured {K : Type} (adv diff : Collection K) : Prop where
  second : ∀ e ∈ diff.values, ∀ p ∈ e.symbols, p.name ∉ adv.names
  first : ∀ a ∈ adv.main, ∀ p ∈ a.value.symbols, p.name ∉ diff.names

end Collection

/-! ### The values of the sum -/

section Values

variable {K : Type} [OrderedField K] [Scalar K] [ExactScalar K] {env : Env K}

/-- Two lists of writes to the same targets, added one by one. -/
def addWrites (ws vs : List (Access × K)) : List (Access × K) :=
  List.zipWith (fun w v => (w.1, w.2 + v.2)) ws vs

theorem evalMain_addValues {as bs : List (Assignment K)} {ws vs : List (Access × K)}
    (ha : Collection.evalMain env as = .ok ws) (hb : Collection.evalMain env bs = .ok vs) :
    Collection.evalMain env (addValues as bs) = .ok (addWrites ws vs) := by
  induction as generalizing bs ws vs with
  | nil =>
      cases ha
      rfl
  | cons a as ih =>
      obtain ⟨w, hw, ha⟩ := bind_eq_ok.1 ha
      obtain ⟨ws, hws, ha⟩ := bind_eq_ok.1 ha
      cases ha
      cases bs with
      | nil =>
          cases hb
          rfl
      | cons b bs =>
          obtain ⟨v, hv, hb⟩ := bind_eq_ok.1 hb
          obtain ⟨vs, hvs, hb⟩ := bind_eq_ok.1 hb
          cases hb
          exact bind_eq_ok.2 ⟨w + v, Expr.eval_add hw hv, bind_eq_ok.2 ⟨_, ih hws hvs, rfl⟩⟩

/-- **Sums of fluxes**: where both fluxes have values at a cell and capture nothing of each other, their
sum has values there, namely the sums of theirs, for the same targets in the same order. -/
theorem addFluxes_keeps_sums {adv diff sum : Collection K} (hsum : addFluxes adv diff = .ok sum)
    (hfree : adv.Uncaptured diff) {fields : FieldValues K} {b : Bindings K} {x : Cell}
    {ws vs : List (Access × K)} (hadv : adv.evalAt fields b x = .ok ws)
    (hdiff : diff.evalAt fields b x = .ok vs) :
    sum.evalAt fields b x = .ok (addWrites ws vs) ∧
      sum.targets = adv.targets ∧ sum.targets = diff.targets := by
  obtain ⟨htargets, hmain, hsubexpressions⟩ := addFluxes_eq_ok_iff.1 hsum
  obtain ⟨env, hbound, hws⟩ := bind_eq_ok.1 hadv
  obtain ⟨b₁, rfl, hframe₁⟩ := Collection.exists_bindings_of_bindAll hbound
  obtain ⟨env, hbound₂, hvs⟩ := bind_eq_ok.1 hdiff
  obtain ⟨b₂, rfl, -⟩ := Collection.exists_bindings_of_bindAll hbound₂
  -- The subexpressions of the second flux find all they mention as if they stood alone.
  obtain ⟨b₃, hbound₃, hagree⟩ := Collection.bindAll_congr (· ∉ adv.names)
    (fun s hs => hfree.second _ (List.mem_append_left _ (List.mem_map_of_mem hs)))
    (fun name hname => (hframe₁ name hname).symm) hbound₂
  obtain ⟨b₃', henv, hframe₃⟩ := Collection.exists_bindings_of_bindAll hbound₃
  cases henv
  have hws₃ : Collection.evalMain ⟨fields, b₃, x⟩ adv.main = .ok ws := by
    rw [← hws]
    refine Collection.evalMain_congr fun a ha => Expr.eval_congr_bindings fun p hp => ?_
    exact hframe₃ p.name (hfree.first a ha p hp)
  have hvs₃ : Collection.evalMain ⟨fields, b₃, x⟩ diff.main = .ok vs := by
    rw [← hvs]
    refine Collection.evalMain_congr fun a ha => Expr.eval_congr_bindings fun p hp => ?_
    have hvalue : a.value ∈ diff.values := List.mem_append_right _ (List.mem_map_of_mem ha)
    exact (hagree p.name (hfree.second _ hvalue p hp)).symm
  have heval : sum.evalAt fields b x = .ok (addWrites ws vs) := by
    rw [Collection.evalAt, hsubexpressions, Collection.bindAll_append, hbound, hmain]
    exact bind_eq_ok.2 ⟨_, hbound₃, evalMain_addValues hws₃ hvs₃⟩
  have htargets₁ : sum.targets = adv.targets := by
    rw [Collection.targets, hmain]
    exact map_target_addValues (Collection.length_main_eq htargets)
  exact ⟨heval, htargets₁, htargets₁.trans htargets⟩

end Values

/-! ### A parameter that is captured -/

/-- The flux through one face that is a given parameter. -/
noncomputable def parameterFlux (name : String) : Collection ℝ :=
  .single ⟨⟨"j", 0, 0⟩, .real name⟩

/-- The flux through one face that is the value of a subexpression. -/
noncomputable def definedFlux (name : String) (v : ℝ) : Collection ℝ where
  main := [⟨⟨"j", 0, 0⟩, .real name⟩]
  subexpressions := [⟨⟨name, .real⟩, .num v⟩]
  nodup_targets := by simp
  nodup_names := by simp

section Captured

variable {fields : FieldValues ℝ} {b : Bindings ℝ} {x : Cell} {name : String} {v : ℝ}

theorem evalAt_parameterFlux (h : b.get? name = some v) :
    (parameterFlux name).evalAt fields b x = .ok [(⟨"j", 0, 0⟩, v)] :=
  Collection.evalAt_single (Expr.eval_symbol h)

theorem evalAt_definedFlux :
    (definedFlux name v).evalAt fields b x = .ok [(⟨"j", 0, 0⟩, v)] := by
  have hvalue : (Expr.real name).eval ((⟨fields, b, x⟩ : Env ℝ).bind name v) = .ok v :=
    Expr.eval_symbol (Bindings.get?_insert_self _ _ _)
  exact bind_eq_ok.2 ⟨_, rfl, bind_eq_ok.2 ⟨v, hvalue, rfl⟩⟩

theorem exists_addFluxes_definedFlux (name other : String) (v : ℝ) :
    ∃ sum, addFluxes (definedFlux name v) (parameterFlux other) = .ok sum :=
  exists_addFluxes rfl (by simp [definedFlux, parameterFlux, Collection.names, Collection.single])

end Captured

/-- One flux defines `a` and the other is the parameter `D`: nothing is captured. -/
theorem addFluxes_uncaptured_sum :
    ∃ sum, addFluxes (definedFlux "a" 1) (parameterFlux "D") = .ok sum ∧
      sum.evalAt (fun _ _ _ => none) (.ofList [("a", 5), ("D", 5)]) 0 =
        .ok [(⟨"j", 0, 0⟩, 1 + 5)] := by
  obtain ⟨sum, hsum⟩ := exists_addFluxes_definedFlux "a" "D" 1
  have hfree : (definedFlux "a" 1).Uncaptured (parameterFlux "D") := by
    constructor
    · simp [parameterFlux, definedFlux, Collection.values, Collection.names, Collection.single,
        Expr.real, Expr.mem_symbols, Expr.subterms]
    · simp [parameterFlux, Collection.names, Collection.single]
  exact ⟨sum, hsum, (addFluxes_keeps_sums hsum hfree evalAt_definedFlux
    (evalAt_parameterFlux rfl)).1⟩

/-- One flux defines `a` to be one and the other is the parameter `a`, which is bound to five.  Their
sum takes the defined value twice. -/
theorem addFluxes_captures :
    ∃ sum, addFluxes (definedFlux "a" 1) (parameterFlux "a") = .ok sum ∧
      (definedFlux "a" 1).evalAt (fun _ _ _ => none) (.ofList [("a", 5)]) 0 =
        .ok [(⟨"j", 0, 0⟩, 1)] ∧
      (parameterFlux "a").evalAt (fun _ _ _ => none) (.ofList [("a", 5)]) 0 =
        .ok [(⟨"j", 0, 0⟩, 5)] ∧
      sum.evalAt (fun _ _ _ => none) (.ofList [("a", 5)]) 0 = .ok [(⟨"j", 0, 0⟩, 2)] ∧
      (2 : ℝ) ≠ 1 + 5 := by
  obtain ⟨sum, hsum⟩ := exists_addFluxes_definedFlux "a" "a" 1
  refine ⟨sum, hsum, evalAt_definedFlux, evalAt_parameterFlux rfl, ?_, by norm_num⟩
  obtain ⟨-, hmain, hsubexpressions⟩ := addFluxes_eq_ok_iff.1 hsum
  have htwice : Expr.eval ((⟨fun _ _ _ => none, .ofList [("a", 5)], 0⟩ : Env ℝ).bind "a" 1)
      (.real "a" + .real "a") = .ok (1 + 1) :=
    Expr.eval_add (Expr.eval_symbol rfl) (Expr.eval_symbol rfl)
  rw [one_add_one_eq_two] at htwice
  rw [Collection.evalAt, hmain, hsubexpressions]
  exact bind_eq_ok.2 ⟨_, rfl, bind_eq_ok.2 ⟨2, htwice, rfl⟩⟩

end Electrokinetics
