/-
**Grafting onto coordinates and draws.**

A transformation builds every node above a replacement again, and building may drop or join nodes.
Grafting replaces coordinates and draws and leaves all other nodes as they stand.  On a canonical tree
the two agree as long as a graft gives the building functions nothing to see: it is neither a number
nor a sum nor a product, it sits at the same places as what it stands for, and different grafts differ.
The tree keeps its shape then.

Main definitions:

* `Expr.graft` — grafting;
* `Expr.places` — the field reads and coordinates of a tree, in order;
* `Expr.KeepsShape` — grafts that the building functions do not see.

Main results:

* `Expr.transform_eq_graft` — a transformation of a canonical tree by such grafts is the grafting;
* `Expr.KeepsShape.places_graft` — what is read, and where.
-/

import Electrokinetics.Proofs.Expr.Canonical

set_option relaxedAutoImplicit false
set_option autoImplicit false

namespace Electrokinetics

variable {K : Type}

/-! ### Grafting -/

mutual

/-- Replaces every coordinate and every draw for which `f` gives a replacement, and nothing else. -/
@[simp] def Expr.graft (f : Expr K → Option (Expr K)) : Expr K → Expr K
  | .num value => .num value
  | .symbol s => .symbol s
  | .access a => .access a
  | .counter axis => (f (.counter axis)).getD (.counter axis)
  | .sum es => .sum (Expr.graftList f es)
  | .prod es => .prod (Expr.graftList f es)
  | .power base exponent => .power (base.graft f) (exponent.graft f)
  | .call g es => .call g (Expr.graftList f es)
  | .modulo value modulus => .modulo (value.graft f) (modulus.graft f)
  | .deriv arg axis => .deriv (arg.graft f) axis
  | .select cond whenTrue whenFalse =>
    .select (cond.graft f) (whenTrue.graft f) (whenFalse.graft f)
  | .random ⟨⟨x, y, z⟩, channel, timeStep, seed⟩ =>
    (f (.random ⟨⟨x, y, z⟩, channel, timeStep, seed⟩)).getD
      (.random ⟨⟨x.graft f, y.graft f, z.graft f⟩, channel, timeStep.graft f, seed.graft f⟩)

/-- Grafts onto the expressions of a condition. -/
@[simp] def Cond.graft (f : Expr K → Option (Expr K)) : Cond K → Cond K
  | .const value => .const value
  | .greater lhs rhs => .greater (lhs.graft f) (rhs.graft f)
  | .all conds => .all (Cond.graftList f conds)

/-- Grafts onto a list of expressions. -/
@[simp] def Expr.graftList (f : Expr K → Option (Expr K)) : List (Expr K) → List (Expr K)
  | [] => []
  | e :: es => e.graft f :: Expr.graftList f es

/-- Grafts onto the expressions of a list of conditions. -/
@[simp] def Cond.graftList (f : Expr K → Option (Expr K)) : List (Cond K) → List (Cond K)
  | [] => []
  | c :: cs => c.graft f :: Cond.graftList f cs

end

variable {f : Expr K → Option (Expr K)}

theorem Cond.graftList_eq (cs : List (Cond K)) : Cond.graftList f cs = cs.map (Cond.graft f) := by
  induction cs with
  | nil => rfl
  | cons c cs ih => simp [Cond.graftList, ih]

namespace Expr

theorem graftList_eq (es : List (Expr K)) : Expr.graftList f es = es.map (graft f) := by
  induction es with
  | nil => rfl
  | cons e es ih => simp [Expr.graftList, ih]

theorem graft_random (key : RandomKey (Expr K)) :
    (random key).graft f = (f (random key)).getD (random (key.map (graft f))) := by
  obtain ⟨⟨x, y, z⟩, channel, timeStep, seed⟩ := key
  rfl

/-- Whether a node is a coordinate or a draw. -/
def isGraftSite : Expr K → Bool
  | .counter _ => true
  | .random _ => true
  | _ => false

end Expr

/-! ### Places -/

namespace Expr

/-- Whether the value of a node itself changes with the cell. -/
def isPlace : Expr K → Bool
  | .access _ => true
  | .counter _ => true
  | _ => false

/-- The field reads and the coordinates of an expression, in order. -/
def places (e : Expr K) : List (Expr K) := e.subterms.filter isPlace

/-- What is asked of reads and coordinates only can be asked of the places. -/
theorem any_subterms {p : Expr K → Bool} (hp : ∀ t, p t = true → t.isPlace = true) (e : Expr K) :
    e.subterms.any p = e.places.any p := by
  rw [places, List.any_filter]
  congr 1
  funext t
  cases h : p t with
  | true => rw [hp t h, Bool.true_and]
  | false => rw [Bool.and_false]

theorem hasAccess_eq (e : Expr K) : e.hasAccess = e.places.any isAccess :=
  any_subterms (fun t h => by cases t <;> first | rfl | cases h) e

theorem hasCounter_eq (e : Expr K) : e.hasCounter = e.places.any isCounter :=
  any_subterms (fun t h => by cases t <;> first | rfl | cases h) e

theorem accesses_eq (e : Expr K) : e.accesses = (e.places.filterMap access?).eraseDups := by
  have hplace (t : Expr K) : (if t.isPlace then t.access? else none) = t.access? := by
    cases t <;> rfl
  simp only [accesses, places, List.filterMap_filter, hplace]

theorem places_eq_nil {e : Expr K} (haccess : e.hasAccess = false) (hcounter : e.hasCounter = false) :
    e.places = [] := by
  rw [places, List.filter_eq_nil_iff]
  intro t ht hplace
  rw [hasAccess, List.any_eq_false] at haccess
  rw [hasCounter, List.any_eq_false] at hcounter
  cases t with
  | access a => exact haccess _ ht rfl
  | counter axis => exact hcounter _ ht rfl
  | _ => cases hplace

end Expr

/-! ### Grafts that are not seen -/

namespace Expr

variable [Scalar K]

/-- Grafts that the building functions do not see. -/
structure KeepsShape (f : Expr K → Option (Expr K)) : Prop where
  /-- Coordinates and draws are all that is grafted onto. -/
  site : ∀ {e : Expr K}, e.isGraftSite = false → f e = none
  /-- A graft is no number, no sum and no product. -/
  kind : ∀ {e u : Expr K}, f e = some u →
    u.asNum? = none ∧ u.isSum = false ∧ u.isProd = false
  /-- A graft has the places of what it stands for. -/
  places : ∀ {e u : Expr K}, f e = some u → u.places = e.places
  /-- A graft compares equal only to what stands for something equal. -/
  same_left : ∀ {e u : Expr K}, f e = some u →
    ∀ e' : Expr K, u.same (e'.graft f) = true → e.same e' = true
  /-- The same on the other side. -/
  same_right : ∀ {e u : Expr K}, f e = some u →
    ∀ e' : Expr K, (e'.graft f).same u = true → e'.same e = true

namespace KeepsShape

variable (hf : KeepsShape f)

include hf

theorem graft_eq {e u : Expr K} (h : f e = some u) : e.graft f = u := by
  cases e with
  | counter axis => rw [graft, h, Option.getD_some]
  | random key => rw [graft_random, h, Option.getD_some]
  | _ => rw [hf.site rfl] at h; cases h

/-- Grafting keeps the kind of a node as far as sums and products look at it. -/
theorem kind_graft (e : Expr K) :
    (e.graft f).asNum? = e.asNum? ∧ (e.graft f).isSum = e.isSum ∧ (e.graft f).isProd = e.isProd := by
  cases e with
  | counter axis =>
      cases h : f (counter axis) with
      | some u =>
          rw [hf.graft_eq h]
          exact hf.kind h
      | none =>
          rw [graft, h]
          exact ⟨rfl, rfl, rfl⟩
  | random key =>
      cases h : f (random key) with
      | some u =>
          rw [hf.graft_eq h]
          exact hf.kind h
      | none =>
          rw [graft_random, h]
          exact ⟨rfl, rfl, rfl⟩
  | _ => exact ⟨rfl, rfl, rfl⟩

theorem keepsKind : KeepsKind (graft f) where
  asNum? e := (hf.kind_graft e).1
  isSum e := (hf.kind_graft e).2.1
  isProd e := (hf.kind_graft e).2.2

omit hf [Scalar K] in
theorem isConst_graft (c : Cond K) : (c.graft f).isConst = c.isConst := by cases c <;> rfl

theorem isOpen_graft (c : Cond K) : (c.graft f).isOpen = c.isOpen := by
  cases c with
  | greater lhs rhs => exact hf.keepsKind.isOpen_greater lhs rhs
  | _ => rfl

/-! ### Places of a grafted tree -/

omit hf [Scalar K] in
theorem filter_subtermsList_graft {es : List (Expr K)}
    (ih : ∀ e ∈ es, (e.graft f).places = e.places) :
    (subtermsList (graftList f es)).filter isPlace = (subtermsList es).filter isPlace := by
  rw [graftList_eq, subtermsList_eq, subtermsList_eq, List.filter_flatMap, List.filter_flatMap,
    List.flatMap_map]
  exact List.flatMap_congr ih

theorem placesSteps : Expr.InductionSteps (K := K) (fun e => (e.graft f).places = e.places)
    (fun c => (c.graft f).subterms.filter isPlace = c.subterms.filter isPlace) where
  num value := rfl
  symbol s := rfl
  access a := rfl
  counter axis := by
    cases h : f (counter axis) with
    | some u => rw [hf.graft_eq h, hf.places h]
    | none => rw [graft, h, Option.getD_none]
  sum terms ih := filter_subtermsList_graft ih
  prod factors ih := filter_subtermsList_graft ih
  power base exponent ih₁ ih₂ := by
    simp only [graft, Expr.places, subterms, List.filter_cons, List.filter_append, isPlace,
      Bool.false_eq_true, if_false] at ih₁ ih₂ ⊢
    rw [ih₁, ih₂]
  call g args ih := filter_subtermsList_graft ih
  modulo value modulus ih₁ ih₂ := by
    simp only [graft, Expr.places, subterms, List.filter_cons, List.filter_append, isPlace,
      Bool.false_eq_true, if_false] at ih₁ ih₂ ⊢
    rw [ih₁, ih₂]
  deriv arg axis ih := ih
  select cond whenTrue whenFalse ihc ih₁ ih₂ := by
    simp only [graft, Expr.places, subterms, List.filter_cons, List.filter_append, isPlace,
      Bool.false_eq_true, if_false] at ihc ih₁ ih₂ ⊢
    rw [ihc, ih₁, ih₂]
  random key ihcounters iht ihs := by
    cases h : f (random key) with
    | some u => rw [hf.graft_eq h, hf.places h]
    | none =>
        obtain ⟨⟨x, y, z⟩, channel, timeStep, seed⟩ := key
        have hx := ihcounters .x
        have hy := ihcounters .y
        have hz := ihcounters .z
        rw [graft, h, Option.getD_none]
        simp only [Expr.places, subterms, List.filter_cons, List.filter_append, isPlace, PerAxis.get,
          Bool.false_eq_true, if_false] at hx hy hz iht ihs ⊢
        rw [hx, hy, hz, iht, ihs]
  const value := rfl
  greater lhs rhs ih₁ ih₂ := by
    simp only [Cond.graft, Expr.places, Cond.subterms, List.filter_append] at ih₁ ih₂ ⊢
    rw [ih₁, ih₂]
  all conds ih := by
    rw [Cond.graft, Cond.graftList_eq, Cond.subterms, Cond.subterms, Cond.subtermsList_eq,
      Cond.subtermsList_eq, List.filter_flatMap, List.filter_flatMap, List.flatMap_map]
    exact List.flatMap_congr ih

/-- A grafted tree has the places of the tree. -/
theorem places_graft (e : Expr K) : (e.graft f).places = e.places := Expr.induct hf.placesSteps e

theorem accesses_graft (e : Expr K) : (e.graft f).accesses = e.accesses := by
  rw [accesses_eq, accesses_eq, hf.places_graft]

theorem depends_graft (e : Expr K) :
    ((e.graft f).hasAccess || (e.graft f).hasCounter) = (e.hasAccess || e.hasCounter) := by
  rw [hasAccess_eq, hasCounter_eq, hf.places_graft, ← hasAccess_eq, ← hasCounter_eq]

/-! ### Equality of grafted trees -/

omit hf in
theorem sameList_of_graft {es : List (Expr K)}
    (ih : ∀ e ∈ es, ∀ e' : Expr K, (e.graft f).same (e'.graft f) = true → e.same e' = true)
    {es' : List (Expr K)} (h : sameList (graftList f es) (graftList f es') = true) :
    sameList es es' = true := by
  induction es generalizing es' with
  | nil =>
      cases es' with
      | nil => rw [sameList]
      | cons e' es' => simp [graftList, sameList] at h
  | cons e es hes =>
      cases es' with
      | nil => simp [graftList, sameList] at h
      | cons e' es' =>
          rw [graftList, graftList, sameList, Bool.and_eq_true_iff] at h
          obtain ⟨ihhead, ihtail⟩ := List.forall_mem_cons.1 ih
          rw [sameList, Bool.and_eq_true_iff]
          exact ⟨ihhead e' h.1, hes ihtail h.2⟩

omit hf in
theorem sameList_conds_of_graft {cs : List (Cond K)}
    (ih : ∀ c ∈ cs, ∀ c' : Cond K, (c.graft f).same (c'.graft f) = true → c.same c' = true)
    {cs' : List (Cond K)} (h : Cond.sameList (Cond.graftList f cs) (Cond.graftList f cs') = true) :
    Cond.sameList cs cs' = true := by
  induction cs generalizing cs' with
  | nil =>
      cases cs' with
      | nil => rw [Cond.sameList]
      | cons c' cs' => simp [Cond.graftList, Cond.sameList] at h
  | cons c cs hcs =>
      cases cs' with
      | nil => simp [Cond.graftList, Cond.sameList] at h
      | cons c' cs' =>
          rw [Cond.graftList, Cond.graftList, Cond.sameList, Bool.and_eq_true_iff] at h
          obtain ⟨ihhead, ihtail⟩ := List.forall_mem_cons.1 ih
          rw [Cond.sameList, Bool.and_eq_true_iff]
          exact ⟨ihhead c' h.1, hcs ihtail h.2⟩

/-- Only what is not grafted onto has to be compared. -/
theorem same_of_graft_of {e : Expr K}
    (h : f e = none → ∀ e', f e' = none → (e.graft f).same (e'.graft f) = true → e.same e' = true)
    (e' : Expr K) (hsame : (e.graft f).same (e'.graft f) = true) : e.same e' = true := by
  cases hu : f e with
  | some u =>
      rw [hf.graft_eq hu] at hsame
      exact hf.same_left hu e' hsame
  | none =>
      cases hu' : f e' with
      | some u' =>
          rw [hf.graft_eq hu'] at hsame
          exact hf.same_right hu' e hsame
      | none => exact h hu e' hu' hsame

theorem graftSameSteps : Expr.InductionSteps (K := K)
    (fun e => ∀ e', (e.graft f).same (e'.graft f) = true → e.same e' = true)
    (fun c => ∀ c', (c.graft f).same (c'.graft f) = true → c.same c' = true) where
  num value := hf.same_of_graft_of fun hnone e' hnone' h => by
    cases e' <;> simp only [graft, hnone', Option.getD_none, same, Bool.false_eq_true] at h ⊢
    exact h
  symbol s := hf.same_of_graft_of fun hnone e' hnone' h => by
    cases e' <;> simp only [graft, hnone', Option.getD_none, same, Bool.false_eq_true] at h ⊢
    exact h
  access a := hf.same_of_graft_of fun hnone e' hnone' h => by
    cases e' <;> simp only [graft, hnone', Option.getD_none, same, Bool.false_eq_true] at h ⊢
    exact h
  counter axis := hf.same_of_graft_of fun hnone e' hnone' h => by
    cases e' <;> simp only [graft, hnone, hnone', Option.getD_none, same, Bool.false_eq_true] at h ⊢
    exact h
  sum terms ih := hf.same_of_graft_of fun hnone e' hnone' h => by
    cases e' <;> simp only [graft, hnone', Option.getD_none, same, Bool.false_eq_true] at h ⊢
    exact sameList_of_graft ih h
  prod factors ih := hf.same_of_graft_of fun hnone e' hnone' h => by
    cases e' <;> simp only [graft, hnone', Option.getD_none, same, Bool.false_eq_true] at h ⊢
    exact sameList_of_graft ih h
  power base exponent ih₁ ih₂ := hf.same_of_graft_of fun hnone e' hnone' h => by
    cases e' <;> simp only [graft, hnone', Option.getD_none, same, Bool.false_eq_true,
      Bool.and_eq_true] at h ⊢
    exact ⟨ih₁ _ h.1, ih₂ _ h.2⟩
  call g args ih := hf.same_of_graft_of fun hnone e' hnone' h => by
    cases e' <;> simp only [graft, hnone', Option.getD_none, same, Bool.false_eq_true,
      Bool.and_eq_true] at h ⊢
    exact ⟨h.1, sameList_of_graft ih h.2⟩
  modulo value modulus ih₁ ih₂ := hf.same_of_graft_of fun hnone e' hnone' h => by
    cases e' <;> simp only [graft, hnone', Option.getD_none, same, Bool.false_eq_true,
      Bool.and_eq_true] at h ⊢
    exact ⟨ih₁ _ h.1, ih₂ _ h.2⟩
  deriv arg axis ih := hf.same_of_graft_of fun hnone e' hnone' h => by
    cases e' <;> simp only [graft, hnone', Option.getD_none, same, Bool.false_eq_true,
      Bool.and_eq_true] at h ⊢
    exact ⟨ih _ h.1, h.2⟩
  select cond whenTrue whenFalse ihc ih₁ ih₂ := hf.same_of_graft_of fun hnone e' hnone' h => by
    cases e' <;> simp only [graft, hnone', Option.getD_none, same, Bool.false_eq_true,
      Bool.and_eq_true] at h ⊢
    exact ⟨⟨ihc _ h.1.1, ih₁ _ h.1.2⟩, ih₂ _ h.2⟩
  random key ihcounters iht ihs := hf.same_of_graft_of fun hnone e' hnone' h => by
    cases e' with
    | random key' =>
        obtain ⟨⟨x, y, z⟩, channel, timeStep, seed⟩ := key
        obtain ⟨⟨x', y', z'⟩, channel', timeStep', seed'⟩ := key'
        simp only [graft, hnone, hnone', Option.getD_none, same, Bool.and_eq_true] at h ⊢
        obtain ⟨⟨⟨⟨⟨hx, hy⟩, hz⟩, hchannel⟩, ht⟩, hs⟩ := h
        exact ⟨⟨⟨⟨⟨ihcounters .x _ hx, ihcounters .y _ hy⟩, ihcounters .z _ hz⟩, hchannel⟩, iht _ ht⟩,
          ihs _ hs⟩
    | _ => simp only [graft, hnone, hnone', Option.getD_none, same, Bool.false_eq_true] at h
  const value c' h := by
    cases c' <;> simp only [Cond.graft, Cond.same, Bool.false_eq_true] at h ⊢
    exact h
  greater lhs rhs ih₁ ih₂ c' h := by
    cases c' <;> simp only [Cond.graft, Cond.same, Bool.false_eq_true, Bool.and_eq_true] at h ⊢
    exact ⟨ih₁ _ h.1, ih₂ _ h.2⟩
  all conds ih c' h := by
    cases c' <;> simp only [Cond.graft, Cond.same, Bool.false_eq_true] at h ⊢
    exact sameList_conds_of_graft ih h

/-- Trees that differ still differ after grafting. -/
theorem same_of_graft {e e' : Expr K} (h : (e.graft f).same (e'.graft f) = true) :
    e.same e' = true :=
  Expr.induct hf.graftSameSteps e e' h

/-! ### Transformations of canonical trees -/

theorem settled_cond_graft {c : Cond K} (h : c.Settled) : (c.graft f).Settled := by
  cases c with
  | const value => trivial
  | greater lhs rhs => exact (hf.isOpen_graft (.greater lhs rhs)).trans h
  | all conds =>
      rw [Cond.graft, Cond.graftList_eq]
      exact h.map hf.isOpen_graft

/-- What is left as it is before grafting is left as it is afterwards. -/
theorem settled_graft {e : Expr K} (h : e.Settled) (hsite : e.isGraftSite = false) :
    (e.graft f).Settled := by
  cases e with
  | sum terms =>
      rw [graft, graftList_eq]
      exact hf.keepsKind.sumForm h
  | prod factors =>
      rw [graft, graftList_eq]
      exact hf.keepsKind.prodForm h
  | power base exponent => exact hf.keepsKind.settled_power h
  | call g args =>
      rw [graft, graftList_eq]
      exact hf.keepsKind.settled_call h
  | modulo value modulus => exact hf.keepsKind.settled_modulo h
  | deriv arg axis => exact (hf.depends_graft arg).trans h
  | select cond whenTrue whenFalse =>
      obtain ⟨hconst, hcond, hdiffer⟩ := h
      refine ⟨(isConst_graft cond).trans hconst, hf.settled_cond_graft hcond, ?_⟩
      exact Bool.eq_false_iff.2 fun hsame => Bool.eq_false_iff.1 hdiffer (hf.same_of_graft hsame)
  | counter axis => cases hsite
  | random key => cases hsite
  | _ => trivial

variable {t : Expr K → Option (Expr K)}

omit hf [Scalar K] in
theorem forall_canonical_list [Scalar K] {es : List (Expr K)}
    (ih : ∀ e ∈ es, (e.All fun u => u.Canonical → t u = f u) → e.Canonical →
      e.transform t = e.graft f)
    (h : ∀ e ∈ es, e.All fun u => u.Canonical → t u = f u) (hes : ∀ e ∈ es, e.Canonical) :
    transformList t es = graftList f es := by
  rw [transformList_eq, graftList_eq]
  exact List.map_congr_left fun e he => ih e he (h e he) (hes e he)

/-- The induction behind `Expr.transform_eq_graft`. -/
theorem transformSteps [NeutralScalar K] : Expr.InductionSteps (K := K)
    (fun e => (e.All fun u => u.Canonical → t u = f u) → e.Canonical → e.transform t = e.graft f)
    (fun c => (c.All fun u => u.Canonical → t u = f u) → c.Canonical →
      c.transform t = c.graft f) where
  num value h hc := by rw [transform, h.self hc, hf.site rfl, graft, Option.getD_none]
  symbol s h hc := by rw [transform, h.self hc, hf.site rfl, graft, Option.getD_none]
  access a h hc := by rw [transform, h.self hc, hf.site rfl, graft, Option.getD_none]
  counter axis h hc := by rw [transform, h.self hc, graft]
  sum terms ih h hc := by
    obtain ⟨hsettled, hterms⟩ := all_sum.1 hc
    rw [transform, h.self hc, hf.site rfl, Option.getD_none,
      forall_canonical_list ih (all_sum.1 h).2 hterms]
    exact (hf.settled_graft hsettled rfl).add
  prod factors ih h hc := by
    obtain ⟨hsettled, hfactors⟩ := all_prod.1 hc
    rw [transform, h.self hc, hf.site rfl, Option.getD_none,
      forall_canonical_list ih (all_prod.1 h).2 hfactors]
    exact (hf.settled_graft hsettled rfl).mul
  power base exponent ih₁ ih₂ h hc := by
    obtain ⟨hsettled, hc₁, hc₂⟩ := all_power.1 hc
    obtain ⟨-, h₁, h₂⟩ := all_power.1 h
    rw [transform, h.self hc, hf.site rfl, Option.getD_none, ih₁ h₁ hc₁, ih₂ h₂ hc₂]
    exact pow_eq_power_iff.2 (hf.settled_graft hsettled rfl)
  call g args ih h hc := by
    obtain ⟨hsettled, hargs⟩ := all_call.1 hc
    rw [transform, h.self hc, hf.site rfl, Option.getD_none,
      forall_canonical_list ih (all_call.1 h).2 hargs]
    exact apply_eq_call_iff.2 (hf.settled_graft hsettled rfl)
  modulo value modulus ih₁ ih₂ h hc := by
    obtain ⟨hsettled, hc₁, hc₂⟩ := all_modulo.1 hc
    obtain ⟨-, h₁, h₂⟩ := all_modulo.1 h
    rw [transform, h.self hc, hf.site rfl, Option.getD_none, ih₁ h₁ hc₁, ih₂ h₂ hc₂]
    exact mod_eq_modulo_iff.2 (hf.settled_graft hsettled rfl)
  deriv arg axis ih h hc := by
    obtain ⟨hsettled, hcarg⟩ := all_deriv.1 hc
    rw [transform, h.self hc, hf.site rfl, Option.getD_none, ih (all_deriv.1 h).2 hcarg]
    exact diff_eq_deriv_iff.2 (hf.settled_graft hsettled rfl)
  select cond whenTrue whenFalse ihc ih₁ ih₂ h hc := by
    obtain ⟨hsettled, hccond, hc₁, hc₂⟩ := all_select.1 hc
    obtain ⟨-, hcond, h₁, h₂⟩ := all_select.1 h
    obtain ⟨hconst, -, hdiffer⟩ := hf.settled_graft hsettled rfl
    rw [transform, h.self hc, hf.site rfl, Option.getD_none, ihc hcond ⟨hsettled.2.1, hccond⟩,
      ih₁ h₁ hc₁, ih₂ h₂ hc₂]
    exact piecewise_eq_select_iff.2 ⟨hconst, hdiffer⟩
  random key ihcounters iht ihs h hc := by
    obtain ⟨⟨x, y, z⟩, channel, timeStep, seed⟩ := key
    obtain ⟨-, hccounters, hct, hcs⟩ := all_random.1 hc
    obtain ⟨-, hcounters, ht, hs⟩ := all_random.1 h
    have hx : x.transform t = x.graft f := ihcounters .x (hcounters .x) (hccounters .x)
    have hy : y.transform t = y.graft f := ihcounters .y (hcounters .y) (hccounters .y)
    have hz : z.transform t = z.graft f := ihcounters .z (hcounters .z) (hccounters .z)
    rw [transform, h.self hc, graft, hx, hy, hz, iht ht hct, ihs hs hcs]
  const value _ _ := rfl
  greater lhs rhs ih₁ ih₂ h hc := by
    obtain ⟨hsettled, hall⟩ := hc
    obtain ⟨hc₁, hc₂⟩ := Cond.all_greater.1 hall
    obtain ⟨h₁, h₂⟩ := Cond.all_greater.1 h
    rw [Cond.transform, ih₁ h₁ hc₁, ih₂ h₂ hc₂]
    exact Cond.gt_eq_greater_iff.2 (hf.settled_cond_graft hsettled)
  all conds ih h hc := by
    obtain ⟨hsettled, hall⟩ := hc
    have hconds : Cond.transformList t conds = Cond.graftList f conds := by
      rw [Cond.transformList_eq, Cond.graftList_eq]
      exact List.map_congr_left fun c hc => ih c hc (Cond.all_all.1 h c hc)
        ⟨Cond.settled_of_isOpen (hsettled.2 c hc), Cond.all_all.1 hall c hc⟩
    rw [Cond.transform, hconds]
    exact Cond.Settled.and (hf.settled_cond_graft hsettled)

end KeepsShape

/-- A transformation that does to the nodes of a canonical tree what unseen grafts do is the
grafting. -/
theorem transform_eq_graft [NeutralScalar K] (hf : KeepsShape f) {t : Expr K → Option (Expr K)}
    {e : Expr K} (h : e.All fun u => u.Canonical → t u = f u) (hc : e.Canonical) :
    e.transform t = e.graft f :=
  Expr.induct hf.transformSteps e h hc

theorem keepsShape_none : KeepsShape (K := K) fun _ => none where
  site _ := rfl
  kind h := by cases h
  places h := by cases h
  same_left h := by cases h
  same_right h := by cases h

/-- A transformation that finds nothing to replace leaves a canonical tree as it is. -/
theorem transform_eq_self [NeutralScalar K] {t : Expr K → Option (Expr K)} {e : Expr K}
    (h : e.All fun u => t u = none) (hc : e.Canonical) : e.transform t = e := by
  have hgraft := transform_eq_graft keepsShape_none (h.mono fun u hu _ => hu) hc
  exact hgraft.trans ((transform_eq_graft keepsShape_none (fun _ _ _ => rfl) hc).symm.trans
    (rebuild_eq hc))

end Expr

end Electrokinetics
