/-
**What a sweep writes.**

A sweep reads the store as it was before it and writes into a copy, so it comes to a list of writes
that does not depend on the copy.  If no two of these writes put different values into one place,
their order does not matter: every place that is written holds the value written there.

Main definitions:

* `Write` — a value for a component of a field at a cell;
* `Store.putAll` — the store after some writes;
* `Collection.writes` — the writes of a sweep;
* `Write.Hits` — the place that a write changes;
* `Write.Agrees` — two writes of one value to one place.

Main results:

* `Collection.sweep_eq_ok_iff` — a sweep performs its writes;
* `Collection.exists_sweep_iff`, `Collection.mem_writes` — when there are writes, and which;
* `Store.get?_putAll_of_hit`, `Store.get?_putAll_of_not_hit`, `Store.get?_putAll_of_other` — the
  values after some writes;
* `Store.get?_putAll_congr` — lists of writes with the same effect.
-/

import Electrokinetics.Proofs.Collection
import Electrokinetics.Proofs.Grid.Translation
import Electrokinetics.Sweep.Run

set_option relaxedAutoImplicit false
set_option autoImplicit false

namespace Electrokinetics

/-- A value for a component of a field at a cell. -/
structure Write (K : Type) where
  field : String
  component : Nat
  cell : Cell
  value : K

/-- What a kernel writes at an access of the current cell. -/
def Write.ofAccess {K : Type} (cell : Cell) (w : Access × K) : Write K :=
  ⟨w.1.field, w.1.component, cell + w.1.offset, w.2⟩

/-- A write changes the value of a component at a cell. -/
structure Write.Hits {K : Type} (domain : Domain) (w : Write K) (field : String) (component : Nat)
    (x : Cell) : Prop where
  field_eq : w.field = field
  component_eq : w.component = component
  index_eq : domain.index w.cell = domain.index x

/-- Two writes put one value into one place. -/
structure Write.Agrees {K : Type} (domain : Domain) (w w' : Write K) : Prop where
  field_eq : w.field = w'.field
  component_eq : w.component = w'.component
  value_eq : w.value = w'.value
  index_eq : domain.index w.cell = domain.index w'.cell

theorem Write.Agrees.hits {K : Type} {domain : Domain} {w w' : Write K} {field : String}
    {component : Nat} {x : Cell} (h : w.Agrees domain w') (hw : w.Hits domain field component x) :
    w'.Hits domain field component x :=
  ⟨h.field_eq.symm.trans hw.field_eq, h.component_eq.symm.trans hw.component_eq,
    h.index_eq.symm.trans hw.index_eq⟩

variable {K : Type} [Scalar K] {domain : Domain}

/-! ### Values at a cell -/

omit [Scalar K] in
/-- A cell reads what the interior cell reads that it stands for. -/
theorem Store.get?_foldCell (s : Store K domain) (field : String) (component : Nat) (x : Cell) :
    s.get? field component (domain.foldCell x) = s.get? field component x := by
  have hindex := domain.index_eq_of_foldCell_eq (domain.foldCell_foldCell x)
  simp only [get?, hindex]

omit [Scalar K] in
/-- A component that is set has a value at every cell. -/
theorem Store.exists_values {s : Store K domain} {field : String} {component : Nat}
    (h : ∀ x, (s.get? field component x).isSome) :
    ∃ v : Cell → K, ∀ x, s.get? field component x = some (v x) := by
  choose v hv using fun x => Option.isSome_iff_exists.1 (h x)
  exact ⟨v, hv⟩

omit [Scalar K] in
/-- What a store holds repeats with the domain. -/
theorem Store.apply_foldCell {s : Store K domain} {field : String} {component : Nat} {u : Cell → K}
    (h : ∀ x, s.get? field component x = some (u x)) (x : Cell) : u (domain.foldCell x) = u x := by
  refine Option.some.inj ?_
  rw [← h, ← h, s.get?_foldCell]

theorem Expr.eval_access_here {env : Env K} {field : String} {component : Nat} {v : K}
    (h : env.fields field component env.cell = some v) :
    (Expr.access ⟨field, component, 0⟩).eval env = .ok v := by
  refine Expr.eval_access ?_
  rw [Cell.add_zero]
  exact h

/-! ### Performing writes -/

namespace Store

/-- The store after a write. -/
def put (s : Store K domain) (w : Write K) : Store K domain :=
  s.set w.field w.component w.cell w.value

/-- The store after some writes, one after the other. -/
def putAll (s : Store K domain) (ws : List (Write K)) : Store K domain := ws.foldl put s

@[simp] theorem putAll_nil (s : Store K domain) : s.putAll [] = s := rfl

@[simp] theorem putAll_cons (s : Store K domain) (w : Write K) (ws : List (Write K)) :
    s.putAll (w :: ws) = (s.put w).putAll ws := rfl

theorem putAll_append (s : Store K domain) (ws ws' : List (Write K)) :
    s.putAll (ws ++ ws') = (s.putAll ws).putAll ws' := List.foldl_append

theorem writeAll_eq (s : Store K domain) (cell : Cell) (writes : List (Access × K)) :
    s.writeAll cell writes = s.putAll (writes.map (Write.ofAccess cell)) := by
  induction writes generalizing s with
  | nil => rfl
  | cons w writes ih =>
      rw [List.map_cons, putAll_cons, ← ih]
      rfl

end Store

/-! ### The writes of a sweep -/

namespace Collection

variable {kernel : Collection K} {before s s' : Store K domain} {bindings : Bindings K}
  {cells : List Cell}

/-- The writes of a kernel at some cells, all of which read the same store. -/
def writes (kernel : Collection K) (before : Store K domain) (bindings : Bindings K) :
    List Cell → Except (EvalError K) (List (Write K))
  | [] => .ok []
  | cell :: cells => do
    let here ← kernel.evalAt before.get? bindings cell
    let there ← kernel.writes before bindings cells
    return here.map (Write.ofAccess cell) ++ there

theorem writes_cons_eq_ok_iff {cell : Cell} {ws : List (Write K)} :
    kernel.writes before bindings (cell :: cells) = .ok ws ↔
      ∃ here there, kernel.evalAt before.get? bindings cell = .ok here ∧
        kernel.writes before bindings cells = .ok there ∧
        ws = here.map (Write.ofAccess cell) ++ there := by
  constructor
  · intro h
    obtain ⟨here, hhere, h⟩ := bind_eq_ok.1 h
    obtain ⟨there, hthere, h⟩ := bind_eq_ok.1 h
    cases h
    exact ⟨here, there, hhere, hthere, rfl⟩
  · rintro ⟨here, there, hhere, hthere, rfl⟩
    exact bind_eq_ok.2 ⟨here, hhere, bind_eq_ok.2 ⟨there, hthere, rfl⟩⟩

theorem sweepInto_eq_ok_iff {after : Store K domain} :
    kernel.sweepInto before bindings after cells = .ok s' ↔
      ∃ ws, kernel.writes before bindings cells = .ok ws ∧ after.putAll ws = s' := by
  -- The copy that is written into changes from cell to cell, so the induction is over all copies.
  induction cells generalizing after with
  | nil =>
      constructor
      · intro h
        exact ⟨[], rfl, Except.ok.inj h⟩
      · rintro ⟨ws, hws, rfl⟩
        cases hws
        rfl
  | cons cell cells ih =>
      constructor
      · intro h
        obtain ⟨here, hhere, h⟩ := bind_eq_ok.1 h
        obtain ⟨there, hthere, rfl⟩ := ih.1 h
        refine ⟨_, writes_cons_eq_ok_iff.2 ⟨here, there, hhere, hthere, rfl⟩, ?_⟩
        rw [Store.putAll_append, Store.writeAll_eq]
      · rintro ⟨ws, hws, rfl⟩
        obtain ⟨here, there, hhere, hthere, rfl⟩ := writes_cons_eq_ok_iff.1 hws
        refine bind_eq_ok.2 ⟨here, hhere, ih.2 ⟨there, hthere, ?_⟩⟩
        rw [Store.putAll_append, Store.writeAll_eq]

/-- A sweep performs its writes. -/
theorem sweep_eq_ok_iff :
    kernel.sweep s bindings cells = .ok s' ↔
      ∃ ws, kernel.writes s bindings cells = .ok ws ∧ s.putAll ws = s' := sweepInto_eq_ok_iff

/-- There are writes if the kernel has values at every cell. -/
theorem exists_writes_iff :
    (∃ ws, kernel.writes before bindings cells = .ok ws) ↔
      ∀ cell ∈ cells, ∃ here, kernel.evalAt before.get? bindings cell = .ok here := by
  induction cells with
  | nil => exact ⟨fun _ _ h => absurd h List.not_mem_nil, fun _ => ⟨[], rfl⟩⟩
  | cons cell cells ih =>
      rw [List.forall_mem_cons, ← ih]
      constructor
      · rintro ⟨ws, hws⟩
        obtain ⟨here, there, hhere, hthere, -⟩ := writes_cons_eq_ok_iff.1 hws
        exact ⟨⟨here, hhere⟩, there, hthere⟩
      · rintro ⟨⟨here, hhere⟩, there, hthere⟩
        exact ⟨_, writes_cons_eq_ok_iff.2 ⟨here, there, hhere, hthere, rfl⟩⟩

theorem exists_sweep_iff :
    (∃ s', kernel.sweep s bindings cells = .ok s') ↔
      ∀ cell ∈ cells, ∃ here, kernel.evalAt s.get? bindings cell = .ok here := by
  rw [← exists_writes_iff]
  constructor
  · rintro ⟨s', h⟩
    obtain ⟨ws, hws, -⟩ := sweep_eq_ok_iff.1 h
    exact ⟨ws, hws⟩
  · rintro ⟨ws, hws⟩
    exact ⟨_, sweep_eq_ok_iff.2 ⟨ws, hws, rfl⟩⟩

theorem mem_writes {ws : List (Write K)} (h : kernel.writes before bindings cells = .ok ws)
    {w : Write K} :
    w ∈ ws ↔ ∃ cell ∈ cells, ∃ here, kernel.evalAt before.get? bindings cell = .ok here ∧
      ∃ p ∈ here, w = Write.ofAccess cell p := by
  induction cells generalizing ws with
  | nil =>
      cases h
      constructor
      · intro h
        cases h
      · rintro ⟨cell, h, -⟩
        cases h
  | cons cell cells ih =>
      obtain ⟨here, there, hhere, hthere, rfl⟩ := writes_cons_eq_ok_iff.1 h
      rw [List.mem_append, List.exists_mem_cons_iff, ih hthere, List.mem_map]
      refine or_congr ?_ Iff.rfl
      constructor
      · rintro ⟨p, hp, rfl⟩
        exact ⟨here, hhere, p, hp, rfl⟩
      · rintro ⟨here', hhere', p, hp, rfl⟩
        obtain rfl : here = here' := Except.ok.inj (hhere.symm.trans hhere')
        exact ⟨p, hp, rfl⟩

end Collection

/-! ### Values after some writes -/

namespace Store

variable {s : Store K domain} {ws : List (Write K)} {field : String} {component : Nat} {x : Cell}
  {v : K}

theorem get?_put_of_hit {w : Write K} (h : w.Hits domain field component x) :
    (s.put w).get? field component x = some w.value := by
  rw [put, get?_set, if_pos ⟨h.field_eq, h.component_eq⟩, if_pos h.index_eq.symm]

theorem get?_put_of_not_hit {w : Write K} (hf : w.field = field) (hc : w.component = component)
    (h : ¬ w.Hits domain field component x) :
    (s.put w).get? field component x = some ((s.get? field component x).getD Scalar.zero) := by
  have hindex : domain.index x ≠ domain.index w.cell := fun hx => h ⟨hf, hc, hx.symm⟩
  rw [put, get?_set, if_pos ⟨hf, hc⟩, if_neg hindex, hf, hc]

theorem get?_put_of_other {w : Write K} (h : ¬ (w.field = field ∧ w.component = component)) :
    (s.put w).get? field component x = s.get? field component x := by
  rw [put, get?_set, if_neg h]

/-- A place that is written holds the value, if nothing else is written there. -/
theorem get?_putAll_of_hit (hvalue : ∀ w ∈ ws, w.Hits domain field component x → w.value = v)
    (hhit : ∃ w ∈ ws, w.Hits domain field component x) :
    (s.putAll ws).get? field component x = some v := by
  -- The value may also be there already: this is what the writes before the last one leave.
  have hgeneral (h : s.get? field component x = some v ∨
      ∃ w ∈ ws, w.Hits domain field component x) :
      (s.putAll ws).get? field component x = some v := by
    clear hhit
    induction ws generalizing s with
    | nil =>
        rcases h with h | ⟨w, hw, -⟩
        · exact h
        · cases hw
    | cons w ws ih =>
        rw [putAll_cons]
        refine ih (fun w hw => hvalue w (List.mem_cons_of_mem _ hw)) ?_
        by_cases hw : w.Hits domain field component x
        · rw [get?_put_of_hit hw, hvalue w List.mem_cons_self hw]
          exact Or.inl rfl
        · rcases h with h | ⟨w', hw', hhit⟩
          · by_cases hother : w.field = field ∧ w.component = component
            · rw [get?_put_of_not_hit hother.1 hother.2 hw, h]
              exact Or.inl rfl
            · rw [get?_put_of_other hother]
              exact Or.inl h
          · rcases List.mem_cons.1 hw' with rfl | hw'
            · exact absurd hhit hw
            · exact Or.inr ⟨w', hw', hhit⟩
  exact hgeneral (Or.inr hhit)

/-- A component that is written keeps its value at the cells that are not; a new one is zero
there. -/
theorem get?_putAll_of_not_hit (hnot : ∀ w ∈ ws, ¬ w.Hits domain field component x)
    (hsome : ∃ w ∈ ws, w.field = field ∧ w.component = component) :
    (s.putAll ws).get? field component x =
      some ((s.get? field component x).getD Scalar.zero) := by
  -- The first write that meets the component makes it, and from then on it is there.
  have hgeneral (h : (s.get? field component x).isSome ∨
      ∃ w ∈ ws, w.field = field ∧ w.component = component) :
      (s.putAll ws).get? field component x =
        some ((s.get? field component x).getD Scalar.zero) := by
    clear hsome
    induction ws generalizing s with
    | nil =>
        rcases h with h | ⟨w, hw, -⟩
        · obtain ⟨v, hv⟩ := Option.isSome_iff_exists.1 h
          rw [putAll_nil, hv, Option.getD_some]
        · cases hw
    | cons w ws ih =>
        have htail := fun w hw => hnot w (List.mem_cons_of_mem _ hw)
        rw [putAll_cons]
        by_cases hw : w.field = field ∧ w.component = component
        · have hput := get?_put_of_not_hit (s := s) hw.1 hw.2 (hnot w List.mem_cons_self)
          rw [ih htail (Or.inl (by rw [hput, Option.isSome_some])), hput, Option.getD_some]
        · rw [ih htail, get?_put_of_other hw]
          rw [get?_put_of_other hw]
          refine h.imp_right ?_
          rintro ⟨w', hw', hcomponent⟩
          rcases List.mem_cons.1 hw' with rfl | hw'
          · exact absurd hcomponent hw
          · exact ⟨w', hw', hcomponent⟩
  exact hgeneral (Or.inr hsome)

/-- A component that is not written is what it was. -/
theorem get?_putAll_of_other (h : ∀ w ∈ ws, ¬ (w.field = field ∧ w.component = component)) :
    (s.putAll ws).get? field component x = s.get? field component x := by
  induction ws generalizing s with
  | nil => rfl
  | cons w ws ih =>
      rw [putAll_cons, ih fun w hw => h w (List.mem_cons_of_mem _ hw),
        get?_put_of_other (h w List.mem_cons_self)]

/-- Lists of writes that agree leave the same value, if none of them writes two values there. -/
theorem get?_putAll_congr {ws' : List (Write K)} (h : ∀ w ∈ ws, ∃ w' ∈ ws', w.Agrees domain w')
    (h' : ∀ w ∈ ws', ∃ w' ∈ ws, w.Agrees domain w')
    (hvalue : ∀ w ∈ ws', ∀ w' ∈ ws', w.Hits domain field component x →
      w'.Hits domain field component x → w.value = w'.value) :
    (s.putAll ws).get? field component x = (s.putAll ws').get? field component x := by
  by_cases hhit : ∃ w ∈ ws', w.Hits domain field component x
  · obtain ⟨w, hw, hhits⟩ := hhit
    obtain ⟨u, hu, hagree⟩ := h' w hw
    have hright (w' : Write K) (hw' : w' ∈ ws') (hhits' : w'.Hits domain field component x) :
        w'.value = w.value := hvalue w' hw' w hw hhits' hhits
    have hleft (u : Write K) (hu : u ∈ ws) (hhits' : u.Hits domain field component x) :
        u.value = w.value := by
      obtain ⟨w', hw', hagree'⟩ := h u hu
      rw [hagree'.value_eq]
      exact hright w' hw' (hagree'.hits hhits')
    rw [get?_putAll_of_hit hleft ⟨u, hu, hagree.hits hhits⟩,
      get?_putAll_of_hit hright ⟨w, hw, hhits⟩]
  · have hright : ∀ w ∈ ws', ¬ w.Hits domain field component x := fun w hw hhits =>
      hhit ⟨w, hw, hhits⟩
    have hleft : ∀ u ∈ ws, ¬ u.Hits domain field component x := by
      intro u hu hhits
      obtain ⟨w, hw, hagree⟩ := h u hu
      exact hright w hw (hagree.hits hhits)
    -- The place is not written, but writing elsewhere may still have made the component.
    by_cases hsome : ∃ w ∈ ws', w.field = field ∧ w.component = component
    · obtain ⟨w, hw, hf, hk⟩ := hsome
      obtain ⟨u, hu, hagree⟩ := h' w hw
      rw [get?_putAll_of_not_hit hleft
          ⟨u, hu, hagree.field_eq.symm.trans hf, hagree.component_eq.symm.trans hk⟩,
        get?_putAll_of_not_hit hright ⟨w, hw, hf, hk⟩]
    · have hright : ∀ w ∈ ws', ¬ (w.field = field ∧ w.component = component) :=
        fun w hw hplace => hsome ⟨w, hw, hplace⟩
      have hleft : ∀ u ∈ ws, ¬ (u.field = field ∧ u.component = component) := by
        intro u hu hplace
        obtain ⟨w, hw, hagree⟩ := h u hu
        exact hright w hw ⟨hagree.field_eq.symm.trans hplace.1,
          hagree.component_eq.symm.trans hplace.2⟩
      rw [get?_putAll_of_other hleft, get?_putAll_of_other hright]

end Store

end Electrokinetics
