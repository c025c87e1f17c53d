/-
**Substitution.**

Replacing a parameter by an expression gives what binding the parameter to the value of that
expression gives, and replacing the field reads gives what other field values would give.  All nodes
above a replacement are built again, and a replacement may be a number that decides a condition, ends
a product or removes a derivative; that building keeps values is why nothing of this can be seen.

Main definitions:

* `Env.yielding` — surroundings in which every field read yields a given value.

Main results:

* `Expr.keeps_substitute` — parameters;
* `Expr.keeps_mapAccesses` — field reads;
* `Expr.replacing_keeps_values` — both.
-/

import Electrokinetics.Proofs.Expr.Transform

set_option relaxedAutoImplicit false
set_option autoImplicit false

namespace Electrokinetics

/-! ### Reads that yield given values -/

section Yielding

variable {K : Type}

/-- The same surroundings, but every field read yields a given value. -/
def Env.yielding (env : Env K) (w : Access → K) : Env K :=
  { env with fields := fun field component x => some (w ⟨field, component, x + -env.cell⟩) }

theorem Cell.add_add_neg (x : Cell) (n : Offset) : x + n + -x = n := by
  ext axis
  rw [PerAxis.get_add, PerAxis.get_add, PerAxis.get_neg]
  omega

variable [Scalar K]

theorem Expr.eval_access_yielding (env : Env K) (w : Access → K) (a : Access) :
    (access a).eval (env.yielding w) = .ok (w a) := by
  refine eval_access ?_
  simp only [Env.yielding, Cell.add_add_neg]

end Yielding

/-! ### Values after a substitution -/

namespace Expr

variable {K : Type} [OrderedField K] [Scalar K] [ExactScalar K] {env : Env K} {e : Expr K}

/-- Substituting for a parameter gives the value that the expression has when the parameter is
bound.  A symbol of that name and another kind would be bound too, but not replaced. -/
theorem keeps_substitute {s : Symbol} {v : Expr K} {w : K} (hv : v.eval env = .ok w)
    (hkinds : ∀ t ∈ e.symbols, t.name = s.name → t.kind = s.kind) :
    Keeps (e.eval (env.bind s.name w)) ((e.substitute s v).eval env) := by
  refine keeps_transform fun t ht => ?_
  unfold KeepsAt
  cases t with
  | symbol t =>
      have hget : (env.bind s.name w).bindings.get? t.name =
          if t.name = s.name then some w else env.bindings.get? t.name :=
        Bindings.get?_insert _ _ _ _
      by_cases hts : t = s
      · subst hts
        rw [if_pos rfl] at hget
        simp only [if_true, hv, eval_symbol hget]
        exact Keeps.refl _
      · have hname : t.name ≠ s.name := by
          intro hname
          have hkind := hkinds t (mem_symbols.2 ht) hname
          cases t
          cases s
          exact hts (congrArg₂ Symbol.mk hname hkind)
        rw [if_neg hname] at hget
        simp only [hts, if_false, eval, hget]
        exact fun _ => Keeps.refl _
  | access a => exact fun _ => Keeps.refl _
  | counter axis => exact fun _ => Keeps.refl _
  | _ => exact fun hread => by cases hread

/-- Replacing the field reads gives the value that the expression has when every read yields the value
of its replacement. -/
theorem keeps_mapAccesses {f : Access → Expr K} {w : Access → K}
    (hf : ∀ a ∈ e.accesses, (f a).eval env = .ok (w a)) :
    Keeps (e.eval (env.yielding w)) ((e.mapAccesses f).eval env) := by
  refine keeps_transform fun t ht => ?_
  unfold KeepsAt
  cases t with
  | access a =>
      simp only [eval_access_yielding, hf a (mem_accesses.2 ht)]
      exact Keeps.refl _
  | symbol s => exact fun _ => Keeps.refl _
  | counter axis => exact fun _ => Keeps.refl _
  | _ => exact fun hread => by cases hread

/-- **Substitution is substitution of values**: an expression in which a parameter or the field reads
are replaced has the value that it has where the parameter is bound to the value of the replacement, or
where each read yields that of its own. -/
theorem replacing_keeps_values (env : Env K) (e : Expr K) :
    (∀ (s : Symbol) (v : Expr K) (w : K), v.eval env = .ok w →
      (∀ t ∈ e.symbols, t.name = s.name → t.kind = s.kind) →
        ∀ u, e.eval (env.bind s.name w) = .ok u → (e.substitute s v).eval env = .ok u) ∧
    (∀ (f : Access → Expr K) (w : Access → K),
      (∀ a ∈ e.accesses, (f a).eval env = .ok (w a)) →
        ∀ u, e.eval (env.yielding w) = .ok u → (e.mapAccesses f).eval env = .ok u) :=
  ⟨fun _ _ _ hv hkinds => keeps_substitute hv hkinds, fun _ _ hf => keeps_mapAccesses hf⟩

/-- A product that counts only while its first factor, a parameter, is above zero. -/
def gatedProduct : Expr ℝ :=
  .select (.greater (real "D") (num 0)) (.prod [real "D", .access ⟨"c", 0, 0⟩]) (num 0)

theorem eval_gatedProduct (env : Env ℝ) {x y : ℝ} (hx : env.bindings.get? "D" = some x)
    (hpos : 0 < x) (hy : (access ⟨"c", 0, 0⟩).eval env = .ok y) :
    gatedProduct.eval env = .ok (x * y) := by
  have hD : (real "D").eval env = .ok x := eval_symbol hx
  have hcond : (Cond.greater (real "D") (num 0)).eval env = .ok true :=
    bind_eq_ok.2 ⟨x, hD, bind_eq_ok.2 ⟨0, rfl, congrArg Except.ok (decide_eq_true hpos)⟩⟩
  refine bind_eq_ok.2 ⟨true, hcond, bind_eq_ok.2 ⟨[x, y], evalList_pair hD hy, ?_⟩⟩
  change Except.ok (((1 : ℤ) : ℝ) * x * y) = _
  rw [Int.cast_one, one_mul]

/-- Raising the parameter from two to three, and doubling a read of three. -/
theorem replacing_keeps_values_gated :
    let env : Env ℝ := (Env.ofFields fun _ _ _ => some 3).bind "D" 2
    (gatedProduct.substitute ⟨"D", .real⟩ (.sum [real "D", num 1])).eval env = .ok 9 ∧
      (gatedProduct.mapAccesses fun a => .prod [num 2, .access a]).eval env = .ok 12 := by
  intro env
  have hD : (real "D").eval env = .ok 2 := rfl
  obtain ⟨hparameter, hreads⟩ := replacing_keeps_values env gatedProduct
  constructor
  · have hraised : (sum [real "D", num 1]).eval env = .ok 3 := by
      refine bind_eq_ok.2 ⟨[2, 1], evalList_pair hD rfl, ?_⟩
      change Except.ok (((0 : ℤ) : ℝ) + 2 + 1) = _
      norm_num
    refine hparameter _ _ 3 hraised (by decide) 9 ?_
    have hvalue := eval_gatedProduct (env.bind "D" 3) (x := 3) (y := 3) rfl (by norm_num) rfl
    rw [hvalue]
    norm_num
  · have hdoubled (a : Access) : (prod [num 2, access a]).eval env = .ok 6 := by
      refine bind_eq_ok.2 ⟨[2, 3], evalList_pair rfl rfl, ?_⟩
      change Except.ok (((1 : ℤ) : ℝ) * 2 * 3) = _
      norm_num
    refine hreads _ (fun _ => 6) (fun a _ => hdoubled a) 12 ?_
    have hvalue := eval_gatedProduct (env.yielding fun _ => 6) rfl (by norm_num)
      (eval_access_yielding env _ _)
    rw [hvalue]
    norm_num

end Expr

end Electrokinetics
