/-
What an expression is evaluated in.

Main definitions:

* `FieldValues` — a source of field values, which may lack some;
* `Bindings` — the values of named parameters, in the order in which they were first bound;
* `Env` — a source, bindings and the current cell.
-/

import Electrokinetics.Grid.Axis

set_option relaxedAutoImplicit false
set_option autoImplicit false

namespace Electrokinetics

/-- The value of a component of a field at a cell, where there is one. -/
abbrev FieldValues (K : Type) := String → Nat → Cell → Option K

/-- The values of named parameters, in the order in which they were first bound. -/
structure Bindings (K : Type) where
  /-- The names and their values. -/
  entries : List (String × K)
  deriving Repr

namespace Bindings

variable {K : Type}

/-- No bindings. -/
def empty : Bindings K := ⟨[]⟩

instance : EmptyCollection (Bindings K) := ⟨empty⟩

instance : Inhabited (Bindings K) := ⟨empty⟩

/-- The value of a name. -/
def get? (b : Bindings K) (name : String) : Option K := b.entries.lookup name

/-- Replaces the value of a name at its place, or adds the name at the end. -/
def insertEntry (name : String) (value : K) : List (String × K) → List (String × K)
  | [] => [(name, value)]
  | (other, old) :: rest =>
    if other = name then (other, value) :: rest else (other, old) :: insertEntry name value rest

/-- Binds a name.  A name that is already bound keeps its place. -/
def insert (b : Bindings K) (name : String) (value : K) : Bindings K :=
  ⟨insertEntry name value b.entries⟩

/-- Binds names one after the other. -/
def insertMany (b : Bindings K) (pairs : List (String × K)) : Bindings K :=
  pairs.foldl (fun b pair => b.insert pair.1 pair.2) b

/-- The bindings of some names; of two for one name the later counts. -/
def ofList (pairs : List (String × K)) : Bindings K := empty.insertMany pairs

@[simp] theorem get?_empty (name : String) : (empty : Bindings K).get? name = none := rfl

theorem get?_insert (b : Bindings K) (name other : String) (value : K) :
    (b.insert name value).get? other = if other = name then some value else b.get? other := by
  obtain ⟨entries⟩ := b
  simp only [insert, get?]
  induction entries with
  | nil =>
      by_cases h : other = name
      · simp [insertEntry, h]
      · simp [insertEntry, List.lookup_cons, beq_eq_false_iff_ne.2 h, h]
  | cons entry rest ih =>
      obtain ⟨key, old⟩ := entry
      by_cases hk : key = name
      · subst hk
        by_cases h : other = key
        · simp [insertEntry, h]
        · simp [insertEntry, List.lookup_cons, beq_eq_false_iff_ne.2 h, h]
      · by_cases h : other = key
        · subst h
          simp [insertEntry, hk]
        · simp [insertEntry, hk, List.lookup_cons, beq_eq_false_iff_ne.2 h, ih]

@[simp] theorem get?_insert_self (b : Bindings K) (name : String) (value : K) :
    (b.insert name value).get? name = some value := by
  simp [get?_insert]

end Bindings

/-- What an expression is evaluated in. -/
structure Env (K : Type) where
  /-- The source of field values. -/
  fields : FieldValues K
  /-- The values of the parameters. -/
  bindings : Bindings K
  /-- The current cell. -/
  cell : Cell

namespace Env

variable {K : Type}

/-- A source of field values at the origin, without parameters. -/
def ofFields (fields : FieldValues K) : Env K := ⟨fields, ∅, 0⟩

/-- The environment with one more binding. -/
def bind (env : Env K) (name : String) (value : K) : Env K :=
  { env with bindings := env.bindings.insert name value }

/-- The environment at another cell. -/
def moveTo (env : Env K) (cell : Cell) : Env K := { env with cell }

end Env

end Electrokinetics
