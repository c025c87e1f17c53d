/-
**What a collection of assignments writes.**

A collection evaluates its assignments one by one and gives up at the first that has no value.  So it
has writes exactly if every assignment has a value, the writes are those values at the targets, in
order, and they change only where the value of an assignment does.

Main definitions:

* `Collection.AgreeOff` — bindings that differ only in what a collection defines;
* `Collection.evalAtBy` — what is written, with values of another kind.

Main results:

* `Collection.evalMain_map` — the writes, when the values are known;
* `Collection.exists_evalMain` — whether there are any;
* `Collection.map_fst_evalAt` — the targets of the writes;
* `Collection.related_evalAt`, `Collection.evalAt_congr_reads` — the writes in two surroundings;
* `Collection.exists_bindings_of_bindAll` — what subexpressions change;
* `Collection.evalAt_mapValues` — what is written after a change of all values;
* `Collection.mem_reads`, `Collection.mem_parameters` — the reads and the parameters of a kernel.
-/

import Electrokinetics.Assignment
import Electrokinetics.Proofs.Expr.Lookup

set_option relaxedAutoImplicit false
set_option autoImplicit false

namespace Electrokinetics

namespace Collection

/-! ### Reads and parameters -/

section Reads

variable {K : Type} {c : Collection K}

theorem mem_reads {a : Access} : a ∈ c.reads ↔ ∃ e ∈ c.values, a ∈ e.accesses := by
  rw [reads, List.mem_eraseDups, List.mem_flatMap]

theorem mem_reads_of_main {a : Assignment K} (ha : a ∈ c.main) {r : Access}
    (hr : r ∈ a.value.accesses) : r ∈ c.reads :=
  mem_reads.2 ⟨a.value, List.mem_append_right _ (List.mem_map_of_mem ha), hr⟩

theorem mem_parameters {s : Symbol} :
    s ∈ c.parameters ↔ (∃ e ∈ c.values, s ∈ e.symbols) ∧ s.name ∉ c.names := by
  simp [parameters, List.mem_flatMap]

end Reads

/-! ### Changes of all values -/

section Changes

variable {K : Type}

theorem mapValues_id (c : Collection K) : c.mapValues id = c :=
  ext_lists (List.map_id _) (List.map_id _)

theorem values_mapValues (g : Expr K → Expr K) (c : Collection K) :
    (c.mapValues g).values = c.values.map g := by
  simp only [values, mapValues, List.map_append, List.map_map]
  rfl

theorem reads_mapValues {g : Expr K → Expr K} {c : Collection K}
    (h : ∀ e ∈ c.values, (g e).accesses = e.accesses) : (c.mapValues g).reads = c.reads := by
  rw [reads, reads, values_mapValues, List.flatMap_map]
  exact congrArg List.eraseDups (List.flatMap_congr h)

end Changes

/-! ### Values of assignments -/

variable {K : Type} [Scalar K] {env env' : Env K} {main : List (Assignment K)}
  {R : ∀ α : Type, Except (EvalError K) α → Except (EvalError K) α → Prop}

/-- The writes of assignments that are given one by one. -/
theorem evalMain_map {ι : Type} {items : List ι} {target : ι → Access} {value : ι → Expr K}
    {w : ι → K} (h : ∀ i ∈ items, (value i).eval env = .ok (w i)) :
    evalMain env (items.map fun i => ⟨target i, value i⟩) =
      .ok (items.map fun i => (target i, w i)) := by
  induction items with
  | nil => rfl
  | cons i items ih =>
      obtain ⟨hhead, htail⟩ := List.forall_mem_cons.1 h
      exact bind_eq_ok.2 ⟨w i, hhead, bind_eq_ok.2 ⟨_, ih htail, rfl⟩⟩

theorem exists_evalMain (h : ∀ a ∈ main, ∃ v, a.value.eval env = .ok v) :
    ∃ ws, evalMain env main = .ok ws := by
  have hnonempty : Nonempty K := ⟨Scalar.zero⟩
  choose! w hw using h
  have hmap : evalMain env (main.map fun a => ⟨a.target, a.value⟩) = _ := evalMain_map hw
  rw [List.map_id'] at hmap
  exact ⟨_, hmap⟩

theorem related_evalMain (hR : Composable (EvalError K) R)
    (h : ∀ a ∈ main, R K (a.value.eval env) (a.value.eval env')) :
    R (List (Access × K)) (evalMain env main) (evalMain env' main) := by
  induction main with
  | nil => exact hR.refl _
  | cons a rest ih =>
      obtain ⟨hhead, htail⟩ := List.forall_mem_cons.1 h
      exact hR.bind hhead fun _ => hR.bind (ih htail) fun _ => hR.refl _

theorem evalMain_congr (h : ∀ a ∈ main, a.value.eval env = a.value.eval env') :
    evalMain env main = evalMain env' main :=
  related_evalMain composable_eq h

theorem map_fst_evalMain {ws : List (Access × K)} (h : evalMain env main = .ok ws) :
    ws.map Prod.fst = main.map Assignment.target := by
  induction main generalizing ws with
  | nil =>
      cases h
      rfl
  | cons a rest ih =>
      obtain ⟨v, -, h⟩ := bind_eq_ok.1 h
      obtain ⟨there, hthere, h⟩ := bind_eq_ok.1 h
      cases h
      rw [List.map_cons, List.map_cons, ih hthere]

/-! ### Writes at a cell -/

variable {c : Collection K} {fields : FieldValues K} {b : Bindings K} {x : Cell}

/-- What is written at a cell goes to the targets, in order. -/
theorem map_fst_evalAt {ws : List (Access × K)} (h : c.evalAt fields b x = .ok ws) :
    ws.map Prod.fst = c.targets := by
  obtain ⟨env, -, h⟩ := bind_eq_ok.1 h
  exact map_fst_evalMain h

theorem mem_targets_of_mem_evalAt {ws : List (Access × K)} (h : c.evalAt fields b x = .ok ws)
    {p : Access × K} (hp : p ∈ ws) : p.1 ∈ c.targets :=
  map_fst_evalAt h ▸ List.mem_map_of_mem hp

theorem exists_value_of_mem_targets {ws : List (Access × K)} (h : c.evalAt fields b x = .ok ws)
    {a : Access} (ha : a ∈ c.targets) : ∃ v, (a, v) ∈ ws := by
  rw [← map_fst_evalAt h] at ha
  obtain ⟨⟨_, v⟩, hp, rfl⟩ := List.mem_map.1 ha
  exact ⟨v, hp⟩

theorem evalAt_single {a : Assignment K} {v : K} (h : a.value.eval ⟨fields, b, x⟩ = .ok v) :
    (single a).evalAt fields b x = .ok [(a.target, v)] :=
  bind_eq_ok.2 ⟨_, rfl, bind_eq_ok.2 ⟨v, h, bind_eq_ok.2 ⟨[], rfl, rfl⟩⟩⟩

/-- Subexpressions change only the bindings, and only those of the names that they define. -/
theorem exists_bindings_of_bindAll {subexpressions : List (Subexpression K)} {b : Bindings K}
    {env : Env K} (h : bindAll ⟨fields, b, x⟩ subexpressions = .ok env) :
    ∃ b', env = ⟨fields, b', x⟩ ∧
      ∀ name, name ∉ subexpressions.map Subexpression.name → b'.get? name = b.get? name := by
  induction subexpressions generalizing b with
  | nil =>
      cases h
      exact ⟨b, rfl, fun _ _ => rfl⟩
  | cons s rest ih =>
      obtain ⟨v, -, hrest⟩ := bind_eq_ok.1 h
      obtain ⟨b', henv, hframe⟩ := ih hrest
      refine ⟨b', henv, fun name hname => ?_⟩
      rw [List.map_cons, List.mem_cons, not_or] at hname
      exact (hframe name hname.2).trans (by rw [Bindings.get?_insert]; exact if_neg hname.1)

/-- Bindings that differ from others only in the names that are defined. -/
def AgreeOff (names : List String) (b b' : Bindings K) : Prop :=
  ∀ name, name ∉ names → b'.get? name = b.get? name

omit [Scalar K] in
theorem AgreeOff.insert {names : List String} {b b' : Bindings K} (h : AgreeOff names b b')
    {name : String} (hname : name ∈ names) (v : K) : AgreeOff names b (b'.insert name v) := by
  intro other hother
  have hne : other ≠ name := fun heq => hother (heq ▸ hname)
  rw [Bindings.get?_insert, if_neg hne, h other hother]

/-- What the values have in common in two surroundings, whatever the subexpressions bind, the writes
have in common. -/
theorem related_evalAt (hR : Composable (EvalError K) R) {fields' : FieldValues K} {y : Cell}
    (h : ∀ e ∈ c.values, ∀ b', AgreeOff c.names b b' →
      R K (e.eval ⟨fields, b', x⟩) (e.eval ⟨fields', b', y⟩)) :
    R (List (Access × K)) (c.evalAt fields b x) (c.evalAt fields' b y) := by
  have hsubexpressions : ∀ (subexpressions : List (Subexpression K)) (b' : Bindings K),
      AgreeOff c.names b b' → (∀ s ∈ subexpressions, s ∈ c.subexpressions) →
      R (List (Access × K))
        (bindAll ⟨fields, b', x⟩ subexpressions >>= fun env => evalMain env c.main)
        (bindAll ⟨fields', b', y⟩ subexpressions >>= fun env => evalMain env c.main) := by
    -- Each subexpression is bound before the next is evaluated, so the bindings are general.
    intro subexpressions
    induction subexpressions with
    | nil =>
        intro b' hb' _
        exact related_evalMain hR fun a ha =>
          h a.value (List.mem_append_right _ (List.mem_map_of_mem ha)) b' hb'
    | cons s rest ih =>
        intro b' hb' hmem
        obtain ⟨hs, hrest⟩ := List.forall_mem_cons.1 hmem
        have hvalue := h s.value (List.mem_append_left _ (List.mem_map_of_mem hs)) b' hb'
        rw [bindAll, bindAll, bind_assoc, bind_assoc]
        exact hR.bind hvalue fun v => ih _ (hb'.insert (List.mem_map_of_mem hs) v) hrest
  exact hsubexpressions c.subexpressions b (fun _ _ => rfl) fun _ hs => hs

/-- Fields matter only at the reads of a kernel. -/
theorem evalAt_congr_reads {fields' : FieldValues K}
    (h : ∀ r ∈ c.reads, fields r.field r.component (x + r.offset) =
      fields' r.field r.component (x + r.offset)) :
    c.evalAt fields b x = c.evalAt fields' b x :=
  related_evalAt composable_eq fun e he _ _ =>
    Expr.eval_congr_reads fun a ha => h a (mem_reads.2 ⟨e, he, ha⟩)

/-! ### Values of another kind -/

/-- Evaluates subexpressions in order, with values of a given kind. -/
def bindAllBy (ev : Env K → Expr K → Except (EvalError K) K) (env : Env K) :
    List (Subexpression K) → Except (EvalError K) (Env K)
  | [] => .ok env
  | s :: rest => do
    let value ← ev env s.value
    bindAllBy ev (env.bind s.symbol.name value) rest

/-- Evaluates assignments in order, with values of a given kind. -/
def evalMainBy (ev : Env K → Expr K → Except (EvalError K) K) (env : Env K) :
    List (Assignment K) → Except (EvalError K) (List (Access × K))
  | [] => .ok []
  | a :: rest => do
    let value ← ev env a.value
    let writes ← evalMainBy ev env rest
    return (a.target, value) :: writes

/-- What a kernel writes at a cell, with values of a given kind. -/
def evalAtBy (ev : Env K → Expr K → Except (EvalError K) K) (c : Collection K)
    (fields : FieldValues K) (bindings : Bindings K) (cell : Cell) :
    Except (EvalError K) (List (Access × K)) := do
  let env ← bindAllBy ev ⟨fields, bindings, cell⟩ c.subexpressions
  evalMainBy ev env c.main

variable {ev : Env K → Expr K → Except (EvalError K) K} {g : Expr K → Expr K}

theorem bindAll_map {names : List String} {b' : Bindings K} (hb' : AgreeOff names b b')
    {subexpressions : List (Subexpression K)} (hnames : ∀ s ∈ subexpressions, s.symbol.name ∈ names)
    (h : ∀ s ∈ subexpressions, ∀ b', AgreeOff names b b' →
      (g s.value).eval ⟨fields, b', x⟩ = ev ⟨fields, b', x⟩ s.value) :
    bindAll ⟨fields, b', x⟩ (subexpressions.map fun s => ⟨s.symbol, g s.value⟩) =
      bindAllBy ev ⟨fields, b', x⟩ subexpressions := by
  induction subexpressions generalizing b' with
  | nil => rfl
  | cons s rest ih =>
      obtain ⟨hhead, htail⟩ := List.forall_mem_cons.1 h
      obtain ⟨hname, hnames⟩ := List.forall_mem_cons.1 hnames
      rw [List.map_cons, bindAll, bindAllBy, hhead b' hb']
      exact bind_congr fun value => ih (hb'.insert hname value) hnames htail

theorem evalMain_map_value {env : Env K} {main : List (Assignment K)}
    (h : ∀ a ∈ main, (g a.value).eval env = ev env a.value) :
    evalMain env (main.map fun a => ⟨a.target, g a.value⟩) = evalMainBy ev env main := by
  induction main with
  | nil => rfl
  | cons a rest ih =>
      obtain ⟨hhead, htail⟩ := List.forall_mem_cons.1 h
      rw [List.map_cons, evalMain, evalMainBy, hhead, ih htail]

/-- If all values are replaced by ones that have values of another kind, whatever the subexpressions
bind, then that is what is written. -/
theorem evalAt_mapValues {c : Collection K}
    (h : ∀ e ∈ c.values, ∀ b', AgreeOff c.names b b' →
      (g e).eval ⟨fields, b', x⟩ = ev ⟨fields, b', x⟩ e) :
    (c.mapValues g).evalAt fields b x = c.evalAtBy ev fields b x := by
  have hnames : ∀ s ∈ c.subexpressions, s.symbol.name ∈ c.names := fun s hs =>
    List.mem_map_of_mem hs
  have hsubexpressions : bindAll ⟨fields, b, x⟩ (c.mapValues g).subexpressions =
      bindAllBy ev ⟨fields, b, x⟩ c.subexpressions :=
    bindAll_map (fun _ _ => rfl) hnames fun s hs =>
      h s.value (List.mem_append_left _ (List.mem_map_of_mem hs))
  rw [evalAt, evalAtBy, ← hsubexpressions]
  cases hbind : bindAll ⟨fields, b, x⟩ (c.mapValues g).subexpressions with
  | error e => rfl
  | ok env =>
      obtain ⟨b', rfl, hframe⟩ := exists_bindings_of_bindAll hbind
      have hagree : AgreeOff c.names b b' := fun name hname =>
        hframe name fun hmem => hname (names_mapValues g c ▸ hmem)
      exact evalMain_map_value fun a ha =>
        h a.value (List.mem_append_right _ (List.mem_map_of_mem ha)) b' hagree

/-- Values of a kind that is the usual one, whatever the subexpressions bind, are what is written. -/
theorem evalAtBy_eq_evalAt {c : Collection K}
    (h : ∀ e, ∀ b', ev ⟨fields, b', x⟩ e = e.eval ⟨fields, b', x⟩) :
    c.evalAtBy ev fields b x = c.evalAt fields b x := by
  have hvalues := evalAt_mapValues (g := id) (c := c) (b := b) fun e _ b' _ => (h e b').symm
  rw [mapValues_id] at hvalues
  exact hvalues.symm

end Collection

end Electrokinetics
