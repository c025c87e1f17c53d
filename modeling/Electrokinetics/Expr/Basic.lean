/-
Symbolic expressions.

An expression is a finite tree over numbers, named parameters, reads of fields near the current
cell, the coordinates of the current cell and keyed random draws.  The constructors describe every
tree that can be written down; the functions of `Electrokinetics.Expr.Build` are the ones that keep
trees in their light normal form.

Main definitions:

* `Symbol`, `Access` — a parameter, and a component of a field at an offset;
* `Func` — the elementary functions, with `Func.value?`;
* `Expr`, `Cond`, `RandomKey` — expressions, the conditions of a case distinction, and what
  identifies a random draw;
* `Expr.same`, `Cond.same` — structural equality, which compares numbers by value;
* `Expr.induct` — induction over expressions, conditions and lists of either.
-/

import Electrokinetics.Grid.Axis

set_option relaxedAutoImplicit false
set_option autoImplicit false

namespace Electrokinetics

/-- The kind of number that a parameter stands for. -/
inductive SymbolKind where
  | real
  | integer
  deriving DecidableEq, Repr, Inhabited

/-- A named parameter, or the named result of a subexpression. -/
structure Symbol where
  name : String
  kind : SymbolKind
  deriving DecidableEq, Repr, Inhabited

/-- One component of a field, at an offset from the current cell. -/
structure Access where
  /-- The name of the field. -/
  field : String
  /-- The component; for a flux field, the position of a staggered direction. -/
  component : Nat
  /-- The offset from the current cell. -/
  offset : Offset
  deriving DecidableEq, Repr, Inhabited

/-- The same component, further along by an offset. -/
def Access.shift (n : Offset) (a : Access) : Access := { a with offset := a.offset + n }

/-- An elementary function. -/
inductive Func where
  | sqrt
  | abs
  | min
  | max
  deriving DecidableEq, Repr, Inhabited

namespace Func

/-- The name of a function in texts. -/
def name : Func → String
  | sqrt => "sqrt"
  | abs => "abs"
  | min => "min"
  | max => "max"

/-- The number of arguments of a function. -/
def arity : Func → Nat
  | sqrt => 1
  | abs => 1
  | min => 2
  | max => 2

/-- The value of a function, if it is given as many arguments as it takes. -/
def value? {K : Type} [Scalar K] : Func → List K → Option K
  | sqrt, [a] => some (Scalar.sqrt a)
  | abs, [a] => some (Scalar.abs a)
  | min, [a, b] => some (Scalar.min a b)
  | max, [a, b] => some (Scalar.max a b)
  | _, _ => none

theorem isSome_value?_iff {K : Type} [Scalar K] (f : Func) (args : List K) :
    (f.value? args).isSome ↔ args.length = f.arity := by
  match args with
  | [] | [_] | [_, _] => cases f <;> simp [value?, arity]
  | _ :: _ :: _ :: _ => cases f <;> simp [value?, arity]

end Func

/-- What identifies a random draw: counters for the cell, the channel within the cell, the time step
and the seed. -/
structure RandomKey (E : Type) where
  counters : PerAxis E
  channel : Nat
  timeStep : E
  seed : E
  deriving Repr

mutual

/-- A symbolic expression over a type of scalars. -/
inductive Expr (K : Type) where
  /-- A number. -/
  | num (value : K)
  /-- A parameter. -/
  | symbol (s : Symbol)
  /-- A read of a field. -/
  | access (a : Access)
  /-- The coordinate of the current cell along an axis. -/
  | counter (axis : Axis)
  /-- A sum. -/
  | sum (terms : List (Expr K))
  /-- A product. -/
  | prod (factors : List (Expr K))
  /-- A power. -/
  | power (base exponent : Expr K)
  /-- The application of an elementary function. -/
  | call (f : Func) (args : List (Expr K))
  /-- The remainder by a modulus. -/
  | modulo (value modulus : Expr K)
  /-- The partial derivative of a continuum quantity. -/
  | deriv (arg : Expr K) (axis : Axis)
  /-- A case distinction. -/
  | select (cond : Cond K) (whenTrue whenFalse : Expr K)
  /-- A random number, uniform in the unit interval. -/
  | random (key : RandomKey (Expr K))

/-- A condition of a case distinction. -/
inductive Cond (K : Type) where
  /-- A truth value. -/
  | const (value : Bool)
  /-- The left side is above the right side. -/
  | greater (lhs rhs : Expr K)
  /-- All of some conditions hold. -/
  | all (conds : List (Cond K))

end

instance {K : Type} : Inhabited (Expr K) := ⟨.sum []⟩

instance {K : Type} : Inhabited (Cond K) := ⟨.const true⟩

/-- The key with the coordinates of the current cell as counters. -/
def RandomKey.atCell {K : Type} (channel : Nat) (timeStep seed : Expr K) : RandomKey (Expr K) :=
  ⟨PerAxis.ofFn .counter, channel, timeStep, seed⟩

/-- The key with its counters replaced. -/
def RandomKey.mapCounters {E : Type} (f : Axis → E → E) (key : RandomKey E) : RandomKey E :=
  { key with counters := key.counters.mapAxis f }

/-- The key with every expression in it replaced. -/
def RandomKey.map {E F : Type} (f : E → F) (key : RandomKey E) : RandomKey F :=
  ⟨key.counters.map f, key.channel, f key.timeStep, f key.seed⟩

/-- The expressions of a key: the counters in index order, the time step and the seed. -/
def RandomKey.exprs {E : Type} (key : RandomKey E) : List E :=
  key.counters.toList ++ [key.timeStep, key.seed]

/-! ### Leaves -/

namespace Expr

variable {K : Type}

/-- The number `0`. -/
def zero [Scalar K] : Expr K := .num Scalar.zero

/-- The number `1`. -/
def one [Scalar K] : Expr K := .num Scalar.one

/-- A real parameter. -/
def real (name : String) : Expr K := .symbol ⟨name, .real⟩

/-- An integer parameter. -/
def integer (name : String) : Expr K := .symbol ⟨name, .integer⟩

/-- The value of a number; other expressions have none. -/
def asNum? : Expr K → Option K
  | .num value => some value
  | _ => none

/-- Whether the expression is the number `0`. -/
def isZero [Scalar K] : Expr K → Bool
  | .num value => Scalar.isZero value
  | _ => false

/-- Whether the expression is a number. -/
def isNum (e : Expr K) : Bool := e.asNum?.isSome

/-- Whether the expression is a read of a field. -/
def isAccess : Expr K → Bool
  | .access _ => true
  | _ => false

/-- Whether the expression is a coordinate of the current cell. -/
def isCounter : Expr K → Bool
  | .counter _ => true
  | _ => false

end Expr

/-! ### Structural equality -/

section Same

variable {K : Type} [Scalar K]

mutual

/-- Structural equality.  Numbers are compared by value, so that the two zeros are the same and a
number that differs from itself is not. -/
def Expr.same : Expr K → Expr K → Bool
  | .num a, .num b => Scalar.eq a b
  | .symbol s, .symbol t => s == t
  | .access a, .access b => a == b
  | .counter i, .counter j => i == j
  | .sum es, .sum fs => Expr.sameList es fs
  | .prod es, .prod fs => Expr.sameList es fs
  | .power e₁ e₂, .power f₁ f₂ => e₁.same f₁ && e₂.same f₂
  | .call f es, .call g fs => f == g && Expr.sameList es fs
  | .modulo e₁ e₂, .modulo f₁ f₂ => e₁.same f₁ && e₂.same f₂
  | .deriv e i, .deriv f j => e.same f && i == j
  | .select c e₁ e₂, .select d f₁ f₂ => c.same d && e₁.same f₁ && e₂.same f₂
  | .random ⟨⟨x, y, z⟩, c, t, s⟩, .random ⟨⟨x', y', z'⟩, c', t', s'⟩ =>
    x.same x' && y.same y' && z.same z' && c == c' && t.same t' && s.same s'
  | _, _ => false

/-- Structural equality of conditions. -/
def Cond.same : Cond K → Cond K → Bool
  | .const a, .const b => a == b
  | .greater e₁ e₂, .greater f₁ f₂ => e₁.same f₁ && e₂.same f₂
  | .all cs, .all ds => Cond.sameList cs ds
  | _, _ => false

/-- Structural equality of lists of expressions. -/
def Expr.sameList : List (Expr K) → List (Expr K) → Bool
  | [], [] => true
  | e :: es, f :: fs => e.same f && Expr.sameList es fs
  | _, _ => false

/-- Structural equality of lists of conditions. -/
def Cond.sameList : List (Cond K) → List (Cond K) → Bool
  | [], [] => true
  | c :: cs, d :: ds => c.same d && Cond.sameList cs ds
  | _, _ => false

end

instance : BEq (Expr K) := ⟨Expr.same⟩

instance : BEq (Cond K) := ⟨Cond.same⟩

end Same

/-! ### Induction -/

section Induction

variable {K : Type}

/-- What an induction over expressions and conditions has to show, one item per constructor.  The
items of a list may be assumed one by one. -/
structure Expr.InductionSteps (P : Expr K → Prop) (Q : Cond K → Prop) : Prop where
  num : ∀ value, P (.num value)
  symbol : ∀ s, P (.symbol s)
  access : ∀ a, P (.access a)
  counter : ∀ axis, P (.counter axis)
  sum : ∀ terms, (∀ e ∈ terms, P e) → P (.sum terms)
  prod : ∀ factors, (∀ e ∈ factors, P e) → P (.prod factors)
  power : ∀ base exponent, P base → P exponent → P (.power base exponent)
  call : ∀ f args, (∀ e ∈ args, P e) → P (.call f args)
  modulo : ∀ value modulus, P value → P modulus → P (.modulo value modulus)
  deriv : ∀ arg axis, P arg → P (.deriv arg axis)
  select : ∀ cond whenTrue whenFalse,
    Q cond → P whenTrue → P whenFalse → P (.select cond whenTrue whenFalse)
  random : ∀ key : RandomKey (Expr K),
    (∀ axis, P (key.counters.get axis)) → P key.timeStep → P key.seed → P (.random key)
  const : ∀ value, Q (.const value)
  greater : ∀ lhs rhs, P lhs → P rhs → Q (.greater lhs rhs)
  all : ∀ conds, (∀ c ∈ conds, Q c) → Q (.all conds)

variable {P : Expr K → Prop} {Q : Cond K → Prop}

mutual

/-- Induction over expressions. -/
theorem Expr.induct (steps : Expr.InductionSteps P Q) : ∀ e, P e
  | .num value => steps.num value
  | .symbol s => steps.symbol s
  | .access a => steps.access a
  | .counter axis => steps.counter axis
  | .sum terms => steps.sum terms (Expr.inductList steps terms)
  | .prod factors => steps.prod factors (Expr.inductList steps factors)
  | .power base exponent =>
    steps.power base exponent (Expr.induct steps base) (Expr.induct steps exponent)
  | .call f args => steps.call f args (Expr.inductList steps args)
  | .modulo value modulus =>
    steps.modulo value modulus (Expr.induct steps value) (Expr.induct steps modulus)
  | .deriv arg axis => steps.deriv arg axis (Expr.induct steps arg)
  | .select cond whenTrue whenFalse =>
    steps.select cond whenTrue whenFalse (Cond.induct steps cond) (Expr.induct steps whenTrue)
      (Expr.induct steps whenFalse)
  | .random ⟨⟨x, y, z⟩, channel, timeStep, seed⟩ =>
    have hx := Expr.induct steps x
    have hy := Expr.induct steps y
    have hz := Expr.induct steps z
    steps.random ⟨⟨x, y, z⟩, channel, timeStep, seed⟩
      (fun axis => match axis with
        | .x => hx
        | .y => hy
        | .z => hz)
      (Expr.induct steps timeStep) (Expr.induct steps seed)

/-- Induction over conditions. -/
theorem Cond.induct (steps : Expr.InductionSteps P Q) : ∀ c, Q c
  | .const value => steps.const value
  | .greater lhs rhs => steps.greater lhs rhs (Expr.induct steps lhs) (Expr.induct steps rhs)
  | .all conds => steps.all conds (Cond.inductList steps conds)

/-- Induction over expressions, for the members of a list. -/
theorem Expr.inductList (steps : Expr.InductionSteps P Q) : ∀ es : List (Expr K), ∀ e ∈ es, P e
  | [] => fun _ h => nomatch h
  | e :: es => List.forall_mem_cons.2 ⟨Expr.induct steps e, Expr.inductList steps es⟩

/-- Induction over conditions, for the members of a list. -/
theorem Cond.inductList (steps : Expr.InductionSteps P Q) : ∀ cs : List (Cond K), ∀ c ∈ cs, Q c
  | [] => fun _ h => nomatch h
  | c :: cs => List.forall_mem_cons.2 ⟨Cond.induct steps c, Cond.inductList steps cs⟩

end

end Induction

end Electrokinetics
