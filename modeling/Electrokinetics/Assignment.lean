/-
Assignments, and the collections of them that make up a kernel.

A collection is an ordered list of assignments to field locations and an ordered list of named
subexpressions that the assignments may refer to.  Its targets are distinct, and so are the names of
its subexpressions.

Main definitions:

* `Assignment`, `Subexpression` — a write to a field location, and a named intermediate value;
* `Collection` — the body of a kernel; its fields hold the proofs of distinctness;
* `Collection.ofMain`, `Collection.withSubexpressions` — the checks;
* `Collection.reads`, `Collection.parameters` — what a kernel needs;
* `Collection.evalAt` — the values that a kernel writes at a cell.

Main results:

* `Collection.ofMain_eq_ok_iff`, `Collection.ofMain_eq_error_iff` — when the check for distinct
  targets succeeds, and which target it reports otherwise.
-/

import Electrokinetics.BuildError
import Electrokinetics.Expr.Eval
import Electrokinetics.Expr.Text
import Electrokinetics.Expr.Transform
import Electrokinetics.Repeat

set_option relaxedAutoImplicit false
set_option autoImplicit false

namespace Electrokinetics

/-- A write to a field location. -/
structure Assignment (K : Type) where
  /-- The location. -/
  target : Access
  /-- The value. -/
  value : Expr K

/-- A named intermediate value. -/
structure Subexpression (K : Type) where
  /-- The name. -/
  symbol : Symbol
  /-- The value. -/
  value : Expr K

/-- The body of a kernel. -/
structure Collection (K : Type) where
  /-- The assignments, in order. -/
  main : List (Assignment K)
  /-- The subexpressions, in order. -/
  subexpressions : List (Subexpression K)
  /-- No location is written twice. -/
  nodup_targets : (main.map Assignment.target).Nodup
  /-- No name is defined twice. -/
  nodup_names : (subexpressions.map fun s => s.symbol.name).Nodup

namespace Assignment

variable {K : Type} [Scalar K]

/-- The text of an assignment. -/
def text (a : Assignment K) : String := a.target.text ++ " ← " ++ a.value.text

instance : BEq (Assignment K) := ⟨fun a b => a.target == b.target && a.value == b.value⟩

end Assignment

namespace Subexpression

variable {K : Type}

/-- The name that a subexpression defines. -/
def name (s : Subexpression K) : String := s.symbol.name

/-- The text of a subexpression. -/
def text [Scalar K] (s : Subexpression K) : String := s.symbol.name ++ " ← " ++ s.value.text

instance [Scalar K] : BEq (Subexpression K) :=
  ⟨fun s t => s.symbol == t.symbol && s.value == t.value⟩

end Subexpression

namespace Collection

variable {K : Type}

@[ext] theorem ext_lists {c d : Collection K} (hm : c.main = d.main)
    (hs : c.subexpressions = d.subexpressions) : c = d := by
  cases c
  cases d
  cases hm
  cases hs
  rfl

instance : Inhabited (Collection K) := ⟨⟨[], [], by simp, by simp⟩⟩

instance [Scalar K] : BEq (Collection K) :=
  ⟨fun c d => c.main == d.main && c.subexpressions == d.subexpressions⟩

/-! ### Construction -/

/-- The locations that are written, in order. -/
def targets (c : Collection K) : List Access := c.main.map Assignment.target

/-- The names that are defined, in order. -/
def names (c : Collection K) : List String := c.subexpressions.map fun s => s.symbol.name

/-- The collection of some assignments, if no location is written twice. -/
def ofMain (main : List (Assignment K)) : Except BuildError (Collection K) :=
  match h : firstRepeat? (main.map Assignment.target) with
  | some target => .error (.duplicateTarget target.text)
  | none => .ok ⟨main, [], (firstRepeat?_eq_none_iff _).1 h, by simp⟩

/-- The collection of one assignment. -/
def single (a : Assignment K) : Collection K := ⟨[a], [], by simp, by simp⟩

/-- The collection with other subexpressions, if no name is defined twice. -/
def withSubexpressions (c : Collection K) (subexpressions : List (Subexpression K)) :
    Except BuildError (Collection K) :=
  match h : firstRepeat? (subexpressions.map fun s => s.symbol.name) with
  | some name => .error (.duplicateSymbol name)
  | none =>
    .ok ⟨c.main, subexpressions, c.nodup_targets, (firstRepeat?_eq_none_iff _).1 h⟩

theorem ofMain_eq_ok_iff (main : List (Assignment K)) (c : Collection K) :
    ofMain main = .ok c ↔ c.main = main ∧ c.subexpressions = [] := by
  unfold ofMain
  split
  · rename_i target h
    simp only [reduceCtorEq, false_iff, not_and]
    rintro rfl -
    rw [(firstRepeat?_eq_none_iff _).2 c.nodup_targets] at h
    cases h
  · rename_i h
    simp only [Except.ok.injEq]
    constructor
    · rintro rfl
      exact ⟨rfl, rfl⟩
    · rintro ⟨rfl, hs⟩
      exact ext_lists rfl hs.symm

theorem ofMain_eq_error_iff (main : List (Assignment K)) (e : BuildError) :
    ofMain main = .error e ↔
      ∃ before a after, main = before ++ a :: after ∧ (before.map Assignment.target).Nodup ∧
        a.target ∈ before.map Assignment.target ∧ e = .duplicateTarget a.target.text := by
  unfold ofMain
  split
  · rename_i target h
    rw [Except.error.injEq]
    constructor
    · rintro rfl
      obtain ⟨before, a, after, heq, hd, hm, rfl⟩ := (firstRepeat?_map_eq_some_iff _ _ _).1 h
      exact ⟨before, a, after, heq, hd, hm, rfl⟩
    · rintro ⟨before, a, after, heq, hd, hm, rfl⟩
      rw [(firstRepeat?_map_eq_some_iff _ _ _).2 ⟨before, a, after, heq, hd, hm, rfl⟩] at h
      cases h
      rfl
  · rename_i h
    refine iff_of_false nofun ?_
    rintro ⟨before, a, after, heq, hd, hm, -⟩
    rw [(firstRepeat?_map_eq_some_iff _ _ _).2 ⟨before, a, after, heq, hd, hm, rfl⟩] at h
    cases h

/-! ### Replacing values -/

/-- Replaces every value and keeps targets, names and their order. -/
def mapValues (f : Expr K → Expr K) (c : Collection K) : Collection K where
  main := c.main.map fun a => ⟨a.target, f a.value⟩
  subexpressions := c.subexpressions.map fun s => ⟨s.symbol, f s.value⟩
  nodup_targets := by simpa [Function.comp_def] using c.nodup_targets
  nodup_names := by simpa [Function.comp_def] using c.nodup_names

/-- Replaces the keys of all random draws. -/
def mapKeys [Scalar K] (f : RandomKey (Expr K) → RandomKey (Expr K)) (c : Collection K) :
    Collection K :=
  c.mapValues (Expr.mapKeys f)

@[simp] theorem targets_mapValues (f : Expr K → Expr K) (c : Collection K) :
    (c.mapValues f).targets = c.targets := by
  simp [targets, mapValues, Function.comp_def]

@[simp] theorem names_mapValues (f : Expr K → Expr K) (c : Collection K) :
    (c.mapValues f).names = c.names := by
  simp [names, mapValues, Function.comp_def]

/-! ### What a kernel needs -/

/-- All values: those of the subexpressions, then those of the assignments. -/
def values (c : Collection K) : List (Expr K) :=
  c.subexpressions.map Subexpression.value ++ c.main.map Assignment.value

/-- The distinct field reads, in the order of their first appearance. -/
def reads (c : Collection K) : List Access := (c.values.flatMap Expr.accesses).eraseDups

/-- The parameters: the distinct symbols that no subexpression defines, in the order of their first
appearance. -/
def parameters (c : Collection K) : List Symbol :=
  ((c.values.flatMap Expr.symbols).filter fun s => s.name ∉ c.names).eraseDups

/-! ### Text and value -/

variable [Scalar K]

/-- The text of a collection: one line for each subexpression and then for each assignment. -/
def text (c : Collection K) : String :=
  let lines := c.subexpressions.map Subexpression.text ++ c.main.map Assignment.text
  String.join (lines.map fun line => line ++ "\n")

/-- Evaluates subexpressions in order.  Each one sees the names that were bound before it. -/
def bindAll (env : Env K) : List (Subexpression K) → Except (EvalError K) (Env K)
  | [] => .ok env
  | s :: rest => do
    let value ← s.value.eval env
    bindAll (env.bind s.symbol.name value) rest

/-- Evaluates assignments in order. -/
def evalMain (env : Env K) : List (Assignment K) → Except (EvalError K) (List (Access × K))
  | [] => .ok []
  | a :: rest => do
    let value ← a.value.eval env
    let writes ← evalMain env rest
    return (a.target, value) :: writes

/-- The values that a kernel writes at a cell: first the subexpressions are evaluated, then every
assignment sees the same field values and the names of all subexpressions. -/
def evalAt (c : Collection K) (fields : FieldValues K) (bindings : Bindings K) (cell : Cell) :
    Except (EvalError K) (List (Access × K)) := do
  let env ← bindAll ⟨fields, bindings, cell⟩ c.subexpressions
  evalMain env c.main

end Collection

end Electrokinetics
