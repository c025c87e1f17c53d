/-
**Relabelling reads.**

Relabelling replaces every field read of a tree by another read and leaves the tree as it stands.  A
transformation that replaces reads by reads builds all nodes above them again, so that it could drop or
join some of them.  It does not do so on a canonical tree if different reads stay different: numbers,
sums and products are where they were, a derivative still depends on the position, and the branches of
a case distinction still differ.  So the transformation is the relabelling, and the laws of maps hold
of it.

Main definitions:

* `Expr.relabel` — relabelling.

Main results:

* `Expr.relabel_id`, `Expr.relabel_relabel` — the laws of maps;
* `Expr.same_relabel`, `Expr.canonical_relabel` — what injective relabellings keep;
* `Expr.mapAccesses_eq_relabel` — replacing the reads of a canonical tree is relabelling;
* `Expr.eval_relabel` — the result, when everything that is looked up has the same results.
-/

import Electrokinetics.Proofs.Expr.Canonical
import Electrokinetics.Proofs.Expr.Lookup

set_option relaxedAutoImplicit false
set_option autoImplicit false

namespace Electrokinetics

variable {K : Type}

/-! ### Relabelling -/

mutual

/-- Replaces every field read by another one and nothing else. -/
@[simp] def Expr.relabel (r : Access → Access) : Expr K → Expr K
  | .num value => .num value
  | .symbol s => .symbol s
  | .access a => .access (r a)
  | .counter axis => .counter axis
  | .sum es => .sum (Expr.relabelList r es)
  | .prod es => .prod (Expr.relabelList r es)
  | .power base exponent => .power (base.relabel r) (exponent.relabel r)
  | .call g es => .call g (Expr.relabelList r es)
  | .modulo value modulus => .modulo (value.relabel r) (modulus.relabel r)
  | .deriv arg axis => .deriv (arg.relabel r) axis
  | .select cond whenTrue whenFalse =>
    .select (cond.relabel r) (whenTrue.relabel r) (whenFalse.relabel r)
  | .random ⟨⟨x, y, z⟩, channel, timeStep, seed⟩ =>
    .random ⟨⟨x.relabel r, y.relabel r, z.relabel r⟩, channel, timeStep.relabel r, seed.relabel r⟩

/-- Relabels the expressions of a condition. -/
@[simp] def Cond.relabel (r : Access → Access) : Cond K → Cond K
  | .const value => .const value
  | .greater lhs rhs => .greater (lhs.relabel r) (rhs.relabel r)
  | .all conds => .all (Cond.relabelList r conds)

/-- Relabels a list of expressions. -/
@[simp] def Expr.relabelList (r : Access → Access) : List (Expr K) → List (Expr K)
  | [] => []
  | e :: es => e.relabel r :: Expr.relabelList r es

/-- Relabels the expressions of a list of conditions. -/
@[simp] def Cond.relabelList (r : Access → Access) : List (Cond K) → List (Cond K)
  | [] => []
  | c :: cs => c.relabel r :: Cond.relabelList r cs

end

variable {r s : Access → Access}

theorem Cond.relabelList_eq (cs : List (Cond K)) :
    Cond.relabelList r cs = cs.map (Cond.relabel r) := by
  induction cs with
  | nil => rfl
  | cons c cs ih => rw [Cond.relabelList, ih, List.map_cons]

namespace Expr

theorem relabelList_eq (es : List (Expr K)) : Expr.relabelList r es = es.map (relabel r) := by
  induction es with
  | nil => rfl
  | cons e es ih => rw [Expr.relabelList, ih, List.map_cons]

/-! ### Laws of maps -/

/-- The induction behind `Expr.relabel_id`. -/
theorem relabelIdSteps : Expr.InductionSteps (K := K) (fun e => e.relabel id = e)
    (fun c => c.relabel id = c) where
  num value := rfl
  symbol s := rfl
  access a := rfl
  counter axis := rfl
  sum terms ih := by rw [relabel, relabelList_eq, List.map_congr_left ih, List.map_id']
  prod factors ih := by rw [relabel, relabelList_eq, List.map_congr_left ih, List.map_id']
  power base exponent ih₁ ih₂ := by rw [relabel, ih₁, ih₂]
  call g args ih := by rw [relabel, relabelList_eq, List.map_congr_left ih, List.map_id']
  modulo value modulus ih₁ ih₂ := by rw [relabel, ih₁, ih₂]
  deriv arg axis ih := by rw [relabel, ih]
  select cond whenTrue whenFalse ihc ih₁ ih₂ := by rw [relabel, ihc, ih₁, ih₂]
  random key ihcounters iht ihs := by
    obtain ⟨⟨x, y, z⟩, channel, timeStep, seed⟩ := key
    have hx : x.relabel id = x := ihcounters .x
    have hy : y.relabel id = y := ihcounters .y
    have hz : z.relabel id = z := ihcounters .z
    rw [relabel, hx, hy, hz, iht, ihs]
  const value := rfl
  greater lhs rhs ih₁ ih₂ := by rw [Cond.relabel, ih₁, ih₂]
  all conds ih := by rw [Cond.relabel, Cond.relabelList_eq, List.map_congr_left ih, List.map_id']

theorem relabel_id (e : Expr K) : e.relabel id = e := Expr.induct relabelIdSteps e

/-- The induction behind `Expr.relabel_relabel`. -/
theorem relabelRelabelSteps : Expr.InductionSteps (K := K)
    (fun e => (e.relabel r).relabel s = e.relabel (s ∘ r))
    (fun c => (c.relabel r).relabel s = c.relabel (s ∘ r)) where
  num value := rfl
  symbol s := rfl
  access a := rfl
  counter axis := rfl
  sum terms ih := by
    simp only [relabel, relabelList_eq, List.map_map, Expr.sum.injEq]
    exact List.map_congr_left ih
  prod factors ih := by
    simp only [relabel, relabelList_eq, List.map_map, Expr.prod.injEq]
    exact List.map_congr_left ih
  power base exponent ih₁ ih₂ := by rw [relabel, relabel, relabel, ih₁, ih₂]
  call g args ih := by
    simp only [relabel, relabelList_eq, List.map_map, Expr.call.injEq, true_and]
    exact List.map_congr_left ih
  modulo value modulus ih₁ ih₂ := by rw [relabel, relabel, relabel, ih₁, ih₂]
  deriv arg axis ih := by rw [relabel, relabel, relabel, ih]
  select cond whenTrue whenFalse ihc ih₁ ih₂ := by
    rw [relabel, relabel, relabel, ihc, ih₁, ih₂]
  random key ihcounters iht ihs := by
    obtain ⟨⟨x, y, z⟩, channel, timeStep, seed⟩ := key
    have hx : (x.relabel r).relabel s = x.relabel (s ∘ r) := ihcounters .x
    have hy : (y.relabel r).relabel s = y.relabel (s ∘ r) := ihcounters .y
    have hz : (z.relabel r).relabel s = z.relabel (s ∘ r) := ihcounters .z
    rw [relabel, relabel, relabel, hx, hy, hz, iht, ihs]
  const value := rfl
  greater lhs rhs ih₁ ih₂ := by rw [Cond.relabel, Cond.relabel, Cond.relabel, ih₁, ih₂]
  all conds ih := by
    simp only [Cond.relabel, Cond.relabelList_eq, List.map_map, Cond.all.injEq]
    exact List.map_congr_left ih

theorem relabel_relabel (e : Expr K) : (e.relabel r).relabel s = e.relabel (s ∘ r) :=
  Expr.induct relabelRelabelSteps e

/-! ### Nodes of a relabelled tree -/

theorem subtermsList_relabel {es : List (Expr K)}
    (ih : ∀ e ∈ es, (e.relabel r).subterms = e.subterms.map (relabel r)) :
    subtermsList (relabelList r es) = (subtermsList es).map (relabel r) := by
  rw [relabelList_eq, subtermsList_eq, subtermsList_eq, List.flatMap_map, List.map_flatMap]
  exact List.flatMap_congr ih

/-- The induction behind `Expr.subterms_relabel`. -/
theorem subtermsRelabelSteps : Expr.InductionSteps (K := K)
    (fun e => (e.relabel r).subterms = e.subterms.map (relabel r))
    (fun c => (c.relabel r).subterms = c.subterms.map (Expr.relabel r)) where
  num value := rfl
  symbol s := rfl
  access a := rfl
  counter axis := rfl
  sum terms ih := congrArg (sum _ :: ·) (subtermsList_relabel ih)
  prod factors ih := congrArg (prod _ :: ·) (subtermsList_relabel ih)
  power base exponent ih₁ ih₂ := by
    rw [relabel, subterms, subterms, ih₁, ih₂, List.map_cons, List.map_append, relabel]
  call g args ih := congrArg (call g _ :: ·) (subtermsList_relabel ih)
  modulo value modulus ih₁ ih₂ := by
    rw [relabel, subterms, subterms, ih₁, ih₂, List.map_cons, List.map_append, relabel]
  deriv arg axis ih := by rw [relabel, subterms, subterms, ih, List.map_cons, relabel]
  select cond whenTrue whenFalse ihc ih₁ ih₂ := by
    rw [relabel, subterms, subterms, ihc, ih₁, ih₂, List.map_cons, List.map_append,
      List.map_append, relabel]
  random key ihcounters iht ihs := by
    obtain ⟨⟨x, y, z⟩, channel, timeStep, seed⟩ := key
    have hx : (x.relabel r).subterms = _ := ihcounters .x
    have hy : (y.relabel r).subterms = _ := ihcounters .y
    have hz : (z.relabel r).subterms = _ := ihcounters .z
    simp only [relabel, subterms, hx, hy, hz, iht, ihs, List.map_cons, List.map_append]
    rfl
  const value := rfl
  greater lhs rhs ih₁ ih₂ := by
    rw [Cond.relabel, Cond.subterms, Cond.subterms, ih₁, ih₂, List.map_append]
  all conds ih := by
    rw [Cond.relabel, Cond.relabelList_eq, Cond.subterms, Cond.subterms, Cond.subtermsList_eq,
      Cond.subtermsList_eq, List.flatMap_map, List.map_flatMap]
    exact List.flatMap_congr ih

theorem subterms_relabel (e : Expr K) : (e.relabel r).subterms = e.subterms.map (relabel r) :=
  Expr.induct subtermsRelabelSteps e

theorem any_subterms_relabel {p : Expr K → Bool} (hp : ∀ e, p (e.relabel r) = p e) (e : Expr K) :
    (e.relabel r).subterms.any p = e.subterms.any p := by
  rw [subterms_relabel, List.any_map]
  congr 1
  funext t
  exact hp t

@[simp] theorem hasAccess_relabel (e : Expr K) : (e.relabel r).hasAccess = e.hasAccess :=
  any_subterms_relabel (fun e => by cases e <;> rfl) e

@[simp] theorem hasCounter_relabel (e : Expr K) : (e.relabel r).hasCounter = e.hasCounter :=
  any_subterms_relabel (fun e => by cases e <;> rfl) e

theorem keepsKind_relabel : KeepsKind (K := K) (relabel r) where
  asNum? e := by cases e <;> rfl
  isSum e := by cases e <;> rfl
  isProd e := by cases e <;> rfl

end Expr

/-! ### Equality of relabelled trees -/

section Same

variable [Scalar K]

theorem Expr.sameList_relabel {es : List (Expr K)}
    (ih : ∀ e ∈ es, ∀ f : Expr K, (e.relabel r).same (f.relabel r) = e.same f)
    (fs : List (Expr K)) :
    Expr.sameList (Expr.relabelList r es) (Expr.relabelList r fs) = Expr.sameList es fs := by
  induction es generalizing fs with
  | nil => cases fs <;> simp only [Expr.relabelList, Expr.sameList]
  | cons e es hes =>
      obtain ⟨ihhead, ihtail⟩ := List.forall_mem_cons.1 ih
      cases fs with
      | nil => simp only [Expr.relabelList, Expr.sameList]
      | cons f fs => simp only [Expr.relabelList, Expr.sameList, ihhead f, hes ihtail fs]

theorem Cond.sameList_relabel {cs : List (Cond K)}
    (ih : ∀ c ∈ cs, ∀ d : Cond K, (c.relabel r).same (d.relabel r) = c.same d)
    (ds : List (Cond K)) :
    Cond.sameList (Cond.relabelList r cs) (Cond.relabelList r ds) = Cond.sameList cs ds := by
  induction cs generalizing ds with
  | nil => cases ds <;> simp only [Cond.relabelList, Cond.sameList]
  | cons c cs hcs =>
      obtain ⟨ihhead, ihtail⟩ := List.forall_mem_cons.1 ih
      cases ds with
      | nil => simp only [Cond.relabelList, Cond.sameList]
      | cons d ds => simp only [Cond.relabelList, Cond.sameList, ihhead d, hcs ihtail ds]

namespace Expr

/-- The induction behind `Expr.same_relabel`. -/
theorem sameRelabelSteps (hr : Function.Injective r) : Expr.InductionSteps (K := K)
    (fun e => ∀ f, (e.relabel r).same (f.relabel r) = e.same f)
    (fun c => ∀ d, (c.relabel r).same (d.relabel r) = c.same d) where
  num value f := by cases f <;> simp only [relabel, same]
  symbol s f := by cases f <;> simp only [relabel, same]
  access a f := by
    cases f with
    | access b =>
        -- The one node that changes: here it matters that different reads stay different.
        simp only [relabel, same]
        exact Bool.eq_iff_iff.2 (by rw [beq_iff_eq, beq_iff_eq, hr.eq_iff])
    | _ => simp only [relabel, same]
  counter axis f := by cases f <;> simp only [relabel, same]
  sum terms ih f := by cases f <;> simp only [relabel, same, sameList_relabel ih]
  prod factors ih f := by cases f <;> simp only [relabel, same, sameList_relabel ih]
  power base exponent ih₁ ih₂ f := by cases f <;> simp only [relabel, same, ih₁, ih₂]
  call g args ih f := by cases f <;> simp only [relabel, same, sameList_relabel ih]
  modulo value modulus ih₁ ih₂ f := by cases f <;> simp only [relabel, same, ih₁, ih₂]
  deriv arg axis ih f := by cases f <;> simp only [relabel, same, ih]
  select cond whenTrue whenFalse ihc ih₁ ih₂ f := by
    cases f <;> simp only [relabel, same, ihc, ih₁, ih₂]
  random key ihcounters iht ihs f := by
    obtain ⟨⟨x, y, z⟩, channel, timeStep, seed⟩ := key
    cases f with
    | random key' =>
        obtain ⟨⟨x', y', z'⟩, channel', timeStep', seed'⟩ := key'
        have hx : (x.relabel r).same (x'.relabel r) = x.same x' := ihcounters .x x'
        have hy : (y.relabel r).same (y'.relabel r) = y.same y' := ihcounters .y y'
        have hz : (z.relabel r).same (z'.relabel r) = z.same z' := ihcounters .z z'
        simp only [relabel, same, hx, hy, hz, iht, ihs]
    | _ => simp only [relabel, same]
  const value d := by cases d <;> simp only [Cond.relabel, Cond.same]
  greater lhs rhs ih₁ ih₂ d := by cases d <;> simp only [Cond.relabel, Cond.same, ih₁, ih₂]
  all conds ih d := by
    cases d <;> simp only [Cond.relabel, Cond.same, Cond.sameList_relabel ih]

/-- Relabelled trees compare as the trees do, if different reads stay different. -/
theorem same_relabel (hr : Function.Injective r) (e f : Expr K) :
    (e.relabel r).same (f.relabel r) = e.same f :=
  Expr.induct (sameRelabelSteps hr) e f

end Expr

end Same

/-! ### Relabelled canonical trees -/

section Canonical

variable [Scalar K]

omit [Scalar K] in
theorem Cond.isOpen_relabel (c : Cond K) : (c.relabel r).isOpen = c.isOpen := by
  cases c with
  | greater lhs rhs => exact Expr.keepsKind_relabel.isOpen_greater lhs rhs
  | _ => rfl

omit [Scalar K] in
theorem Cond.settled_relabel {c : Cond K} (h : c.Settled) : (c.relabel r).Settled := by
  cases c with
  | const value => trivial
  | greater lhs rhs => exact (Cond.isOpen_relabel (.greater lhs rhs)).trans h
  | all conds =>
      rw [Cond.relabel, Cond.relabelList_eq]
      exact h.map Cond.isOpen_relabel

namespace Expr

theorem settled_relabel (hr : Function.Injective r) {e : Expr K} (h : e.Settled) :
    (e.relabel r).Settled := by
  have hkind : KeepsKind (K := K) (relabel r) := keepsKind_relabel
  cases e with
  | sum terms =>
      rw [relabel, relabelList_eq]
      exact hkind.sumForm h
  | prod factors =>
      rw [relabel, relabelList_eq]
      exact hkind.prodForm h
  | power base exponent => exact hkind.settled_power h
  | call g args =>
      rw [relabel, relabelList_eq]
      exact hkind.settled_call h
  | modulo value modulus => exact hkind.settled_modulo h
  | deriv arg axis =>
      change ((arg.relabel r).hasAccess || (arg.relabel r).hasCounter) = true
      rw [hasAccess_relabel, hasCounter_relabel]
      exact h
  | select cond whenTrue whenFalse =>
      obtain ⟨hconst, hcond, hdiffer⟩ := h
      have hconst' : (cond.relabel r).isConst = cond.isConst := by cases cond <;> rfl
      exact ⟨hconst'.trans hconst, Cond.settled_relabel hcond,
        (same_relabel hr whenTrue whenFalse).trans hdiffer⟩
  | _ => trivial

/-- Relabelling keeps canonical form, if different reads stay different. -/
theorem canonical_relabel (hr : Function.Injective r) {e : Expr K} (h : e.Canonical) :
    (e.relabel r).Canonical := by
  intro t ht
  rw [subterms_relabel] at ht
  obtain ⟨u, hu, rfl⟩ := List.mem_map.1 ht
  exact settled_relabel hr (h u hu)

/-! ### Replacing reads by reads -/

/-- The induction behind `Expr.mapAccesses_eq_rebuild`. -/
theorem mapAccessesSteps : Expr.InductionSteps (K := K)
    (fun e => e.mapAccesses (fun a => .access (r a)) = (e.relabel r).rebuild)
    (fun c => (c.transform fun e => match e with
        | .access a => some (.access (r a))
        | _ => none) = (c.relabel r).transform fun _ => none) where
  num value := rfl
  symbol s := rfl
  access a := rfl
  counter axis := rfl
  sum terms ih := by
    change add (transformList _ terms) = add (transformList _ (relabelList r terms))
    rw [transformList_eq, transformList_eq, relabelList_eq, List.map_map]
    exact congrArg add (List.map_congr_left ih)
  prod factors ih := by
    change mul (transformList _ factors) = mul (transformList _ (relabelList r factors))
    rw [transformList_eq, transformList_eq, relabelList_eq, List.map_map]
    exact congrArg mul (List.map_congr_left ih)
  power base exponent ih₁ ih₂ := congrArg₂ pow ih₁ ih₂
  call g args ih := by
    change apply g (transformList _ args) = apply g (transformList _ (relabelList r args))
    rw [transformList_eq, transformList_eq, relabelList_eq, List.map_map]
    exact congrArg (apply g) (List.map_congr_left ih)
  modulo value modulus ih₁ ih₂ := congrArg₂ mod ih₁ ih₂
  deriv arg axis ih := congrArg (fun e => e.diff axis) ih
  select cond whenTrue whenFalse ihc ih₁ ih₂ :=
    (congr (congrArg₂ piecewise ihc ih₁) ih₂ :)
  random key ihcounters iht ihs := by
    obtain ⟨⟨x, y, z⟩, channel, timeStep, seed⟩ := key
    have hx : x.mapAccesses _ = (x.relabel r).rebuild := ihcounters .x
    have hy : y.mapAccesses _ = (y.relabel r).rebuild := ihcounters .y
    have hz : z.mapAccesses _ = (z.relabel r).rebuild := ihcounters .z
    change random ⟨⟨x.mapAccesses _, y.mapAccesses _, z.mapAccesses _⟩, channel,
      timeStep.mapAccesses _, seed.mapAccesses _⟩ = _
    rw [hx, hy, hz, iht, ihs]
    rfl
  const value := rfl
  greater lhs rhs ih₁ ih₂ := congrArg₂ Cond.gt ih₁ ih₂
  all conds ih := by
    rw [Cond.relabel, Cond.transform, Cond.transform, Cond.transformList_eq,
      Cond.transformList_eq, Cond.relabelList_eq, List.map_map]
    exact congrArg Cond.and (List.map_congr_left ih)

/-- Replacing reads by reads is relabelling and building the tree again. -/
theorem mapAccesses_eq_rebuild (e : Expr K) :
    e.mapAccesses (fun a => .access (r a)) = (e.relabel r).rebuild :=
  Expr.induct mapAccessesSteps e

/-- On a canonical tree there is nothing to build again, if different reads stay different. -/
theorem mapAccesses_eq_relabel [NeutralScalar K] (hr : Function.Injective r) {e : Expr K}
    (h : e.Canonical) : e.mapAccesses (fun a => .access (r a)) = e.relabel r :=
  (mapAccesses_eq_rebuild e).trans (rebuild_eq (canonical_relabel hr h))

/-! ### Results of a relabelled tree -/

variable {env env' : Env K}

/-- A node that looks at its surroundings has, relabelled, the result that it has elsewhere. -/
def RelabelsAt (r : Access → Access) (env env' : Env K) (t : Expr K) : Prop :=
  t.isLookup = true → (t.relabel r).eval env = t.eval env'

theorem evalList_relabel {es : List (Expr K)}
    (h : ∀ e ∈ es, (e.relabel r).eval env = e.eval env') :
    evalList env (relabelList r es) = evalList env' es := by
  induction es with
  | nil => rfl
  | cons e es ih =>
      obtain ⟨hhead, htail⟩ := List.forall_mem_cons.1 h
      rw [relabelList, evalList, evalList, hhead, ih htail]

theorem evalAll_relabel {cs : List (Cond K)}
    (h : ∀ c ∈ cs, (c.relabel r).eval env = c.eval env') :
    Cond.evalAll env (Cond.relabelList r cs) = Cond.evalAll env' cs := by
  induction cs with
  | nil => rfl
  | cons c cs ih =>
      obtain ⟨hhead, htail⟩ := List.forall_mem_cons.1 h
      rw [Cond.relabelList, Cond.evalAll, Cond.evalAll, hhead, ih htail]

/-- The induction behind `Expr.eval_relabel`. -/
theorem evalRelabelSteps : Expr.InductionSteps (K := K)
    (fun e => e.All (RelabelsAt r env env') → (e.relabel r).eval env = e.eval env')
    (fun c => c.All (RelabelsAt r env env') → (c.relabel r).eval env = c.eval env') where
  num value _ := rfl
  symbol s h := h.self rfl
  access a h := h.self rfl
  counter axis h := h.self rfl
  sum terms ih h := by
    rw [relabel, eval, eval, evalList_relabel fun e he => ih e he ((all_sum.1 h).2 e he)]
  prod factors ih h := by
    rw [relabel, eval, eval, evalList_relabel fun e he => ih e he ((all_prod.1 h).2 e he)]
  power base exponent ih₁ ih₂ h := by
    obtain ⟨-, h₁, h₂⟩ := all_power.1 h
    rw [relabel, eval, eval, ih₁ h₁, ih₂ h₂]
  call g args ih h := by
    have hargs := evalList_relabel fun e he => ih e he ((all_call.1 h).2 e he)
    rw [relabel, eval, eval, hargs]
  modulo value modulus ih₁ ih₂ h := by
    obtain ⟨-, h₁, h₂⟩ := all_modulo.1 h
    rw [relabel, eval, eval, ih₁ h₁, ih₂ h₂]
  deriv arg axis _ _ := rfl
  select cond whenTrue whenFalse ihc ih₁ ih₂ h := by
    obtain ⟨-, hc, h₁, h₂⟩ := all_select.1 h
    rw [relabel, eval, eval, ihc hc, ih₁ h₁, ih₂ h₂]
  random key ihcounters iht ihs h := by
    obtain ⟨-, hcounters, ht, hs⟩ := all_random.1 h
    obtain ⟨⟨x, y, z⟩, channel, timeStep, seed⟩ := key
    have hx : (x.relabel r).eval env = x.eval env' := ihcounters .x (hcounters .x)
    have hy : (y.relabel r).eval env = y.eval env' := ihcounters .y (hcounters .y)
    have hz : (z.relabel r).eval env = z.eval env' := ihcounters .z (hcounters .z)
    have ht' : (timeStep.relabel r).eval env = timeStep.eval env' := iht ht
    have hs' : (seed.relabel r).eval env = seed.eval env' := ihs hs
    rw [relabel, eval, eval, hx, hy, hz, ht', hs']
  const value _ := rfl
  greater lhs rhs ih₁ ih₂ h := by
    obtain ⟨h₁, h₂⟩ := Cond.all_greater.1 h
    rw [Cond.relabel, Cond.eval, Cond.eval, ih₁ h₁, ih₂ h₂]
  all conds ih h := evalAll_relabel fun c hc => ih c hc (Cond.all_all.1 h c hc)

/-- A relabelled tree has the result that the tree has elsewhere, faults included, if all that it
looks up has. -/
theorem eval_relabel {e : Expr K} (h : e.All (RelabelsAt r env env')) :
    (e.relabel r).eval env = e.eval env' :=
  Expr.induct evalRelabelSteps e h

end Expr

end Canonical

end Electrokinetics
