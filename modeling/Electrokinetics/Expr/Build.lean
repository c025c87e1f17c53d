/-
Building expressions in their light normal form.

The functions of this module stand for the constructors of the same meaning and simplify as they
build: sums and products are flattened, numbers in them are folded into one constant at the end of a
sum and one coefficient at the front of a product, and applications, powers, remainders, derivatives
and case distinctions whose value is known are replaced by it.  Nothing is ever reordered besides
the constant, so that a sum is evaluated in the order in which it was written.

Main definitions:

* `Expr.add`, `Expr.mul`, `Expr.pow`, `Expr.apply`, `Expr.mod`, `Expr.diff`, `Expr.piecewise` — one
  for each kind of node;
* `Cond.gt`, `Cond.and` — likewise for conditions;
* the arithmetic operators on expressions.
-/

import Electrokinetics.Expr.Subterm

set_option relaxedAutoImplicit false
set_option autoImplicit false

namespace Electrokinetics

variable {K : Type} [Scalar K]

namespace Expr

/-! ### Sums and products -/

/-- The numbers of a list of expressions. -/
def numbers (es : List (Expr K)) : List K := es.filterMap asNum?

/-- The expressions of a list that are not numbers. -/
def symbolic (es : List (Expr K)) : List (Expr K) := es.filter fun e => !e.isNum

/-- The terms of an expression as part of a sum. -/
def addends : Expr K → List (Expr K)
  | .sum terms => terms
  | e => [e]

/-- The factors of an expression as part of a product. -/
def factors : Expr K → List (Expr K)
  | .prod es => es
  | e => [e]

/-- The sum of some terms: nested sums are opened, and the numbers are added up to one constant,
which comes last and is left out if it is zero. -/
def add (terms : List (Expr K)) : Expr K :=
  let terms := terms.flatMap addends
  let constant := (numbers terms).foldl Scalar.add Scalar.zero
  match symbolic terms ++ (if Scalar.isZero constant then [] else [.num constant]) with
  | [] => zero
  | [e] => e
  | es => .sum es

/-- The product of some factors: nested products are opened, and the numbers are multiplied to one
coefficient, which comes first and is left out if it is one.  With a coefficient of zero the product
is zero. -/
def mul (es : List (Expr K)) : Expr K :=
  let es := es.flatMap factors
  let coefficient := (numbers es).foldl Scalar.mul Scalar.one
  if Scalar.isZero coefficient then zero
  else
    match symbolic es with
    | [] => .num coefficient
    | e :: es =>
      if Scalar.eq coefficient Scalar.one then
        match es with
        | [] => e
        | _ => .prod (e :: es)
      else .prod (.num coefficient :: e :: es)

instance : Add (Expr K) := ⟨fun a b => add [a, b]⟩

instance : Mul (Expr K) := ⟨fun a b => mul [a, b]⟩

instance : Neg (Expr K) := ⟨fun a => mul [.num Scalar.negOne, a]⟩

instance : Sub (Expr K) := ⟨fun a b => a + -b⟩

/-- Division by a number multiplies by its reciprocal. -/
instance : HDiv (Expr K) K (Expr K) := ⟨fun a b => a * .num (Scalar.div Scalar.one b)⟩

/-! ### Powers and functions -/

/-- A power.  The exponents one and zero and the base one need no power, and two numbers have a
known one. -/
def pow (base exponent : Expr K) : Expr K :=
  match base, exponent with
  | .num b, .num e =>
    if Scalar.eq e Scalar.one then base
    else if Scalar.isZero e then one
    else .num (Scalar.pow b e)
  | _, .num e =>
    if Scalar.eq e Scalar.one then base
    else if Scalar.isZero e then one
    else .power base exponent
  | .num b, _ => if Scalar.eq b Scalar.one then one else .power base exponent
  | _, _ => .power base exponent

/-- The reciprocal is a power, so division by an expression multiplies by one. -/
instance : Div (Expr K) := ⟨fun a b => a * pow b (.num Scalar.negOne)⟩

/-- The value of a function at numbers, unless it is the square root of a negative one. -/
def foldCall? (f : Func) (args : List K) : Option K :=
  match f, args with
  | .sqrt, [a] => if Scalar.le Scalar.zero a then some (Scalar.sqrt a) else none
  | f, args => f.value? args

/-- The application of a function. -/
def apply (f : Func) (args : List (Expr K)) : Expr K :=
  match (args.mapM asNum?).bind (foldCall? f) with
  | some value => .num value
  | none => .call f args

/-- The square root. -/
def sqrt (e : Expr K) : Expr K := apply .sqrt [e]

/-- The absolute value. -/
def abs (e : Expr K) : Expr K := apply .abs [e]

/-- The smaller of two expressions. -/
def min (a b : Expr K) : Expr K := apply .min [a, b]

/-- The larger of two expressions. -/
def max (a b : Expr K) : Expr K := apply .max [a, b]

/-- The remainder by a modulus. -/
def mod (value modulus : Expr K) : Expr K :=
  match value, modulus with
  | .num a, .num m => if Scalar.isZero m then .modulo value modulus else .num (Scalar.rem a m)
  | _, _ => .modulo value modulus

/-- The partial derivative.  What does not depend on the position has none. -/
def diff (e : Expr K) (axis : Axis) : Expr K :=
  if e.hasAccess || e.hasCounter then .deriv e axis else zero

/-! ### Case distinctions -/

/-- A case distinction, unless the condition is a truth value or the branches are the same. -/
def piecewise (cond : Cond K) (whenTrue whenFalse : Expr K) : Expr K :=
  match cond with
  | .const true => whenTrue
  | .const false => whenFalse
  | cond => if whenTrue == whenFalse then whenTrue else .select cond whenTrue whenFalse

end Expr

namespace Cond

/-- A comparison, decided if both sides are numbers. -/
def gt (lhs rhs : Expr K) : Cond K :=
  match lhs, rhs with
  | .num a, .num b => .const (Scalar.lt b a)
  | _, _ => .greater lhs rhs

/-- Whether a condition is the truth value false. -/
def isFalse {K : Type} : Cond K → Bool
  | .const value => !value
  | _ => false

/-- The conditions that a condition contributes to a conjunction. -/
def conjuncts {K : Type} : Cond K → List (Cond K)
  | .const true => []
  | .all conds => conds
  | c => [c]

/-- A conjunction: nested conjunctions are opened, the truth value true is left out, and the truth
value false decides it. -/
def and {K : Type} (conds : List (Cond K)) : Cond K :=
  if conds.any isFalse then .const false
  else
    match conds.flatMap conjuncts with
    | [] => .const true
    | [c] => c
    | cs => .all cs

end Cond

end Electrokinetics
