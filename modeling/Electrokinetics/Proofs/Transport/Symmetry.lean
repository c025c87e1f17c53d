/-
**A step of transport on a turned grid.**

Only one of two opposite faces is stored, so a symmetry of the grid takes stored faces to faces that are
not.  This does not matter if the flux through a face, seen from its other side, is the opposite flux:
then the balance of a cell is what flows out through all its neighbours, stored or not, and a symmetry
only permutes these.  Diffusion, migration and advection are all opposite when the two cells of a face
change places, in every direction and for every velocity.  So a step on the turned store leaves the
turned concentration.

Main definitions:

* `Store.turned` — a store after a symmetry, with one field as the components of a velocity;
* `transportFace` — the flux through a face.

Main results:

* `Store.get?_turned`, `Store.get?_turned_velocity` — the values of a turned store;
* `FiniteVolume.stepped_eq` — a step by opposite fluxes, as a sum over all neighbours;
* `transportFace_opposite`, `transportFace_turn` — the flux from the other side, and after a symmetry;
* `transport_step_turned` — both sweeps of a step.
-/

import Electrokinetics.Proofs.Grid.Symmetry
import Electrokinetics.Proofs.Expr.Grouping
import Electrokinetics.Proofs.Transport.Boxes

set_option relaxedAutoImplicit false
set_option autoImplicit false

namespace Electrokinetics

open Electrokinetics.Expr

/-! ### A turned store -/

namespace Store

variable {K : Type} {domain : Domain} (g : GridSymmetry)

/-- A column of values after a symmetry, every value brought into `f`. -/
def turnColumn (f : K → K) (column : Vector K domain.cellCount) :
    Vector K (domain.turned g).cellCount :=
  Vector.ofFn fun i => f column[domain.index (g.preimage ((domain.turned g).cellAt i.val))]

theorem get_turnColumn (f : K → K) (column : Vector K domain.cellCount) (x : Cell) :
    (turnColumn g f column).get ((domain.turned g).index (g.cell x)) =
      f (column.get (domain.index x)) := by
  have hindex : domain.index (g.preimage ((domain.turned g).foldCell (g.cell x))) =
      domain.index x := by
    refine domain.index_eq_of_foldCell_eq ?_
    rw [domain.foldCell_preimage, g.preimage_cell]
  have hread : (turnColumn g f column).get ((domain.turned g).index (g.cell x)) =
      f (column.get (domain.index (g.preimage
        ((domain.turned g).cellAt ((domain.turned g).index (g.cell x)).val)))) :=
    Vector.getElem_ofFn _
  rw [hread, Domain.cellAt_index, hindex]

variable [Scalar K]

/-- What a symmetry makes of the component of a velocity along an axis. -/
def signed (axis : Axis) (a : K) : K := if g.sign axis = 1 then a else Scalar.neg a

/-- A store after a symmetry.  All values come along with their cells; the components of one field,
the velocity, are turned and reversed along with the axes. -/
def turned (velocity : String) (s : Store K domain) : Store K (domain.turned g) :=
  ⟨Axis.all.foldl
    (fun columns axis => columns.alter (velocity, (g.axis axis).index) fun _ =>
      s.columns[(velocity, axis.index)]?.map (turnColumn g (signed g axis)))
    (s.columns.map fun _ column => turnColumn g id column)⟩

variable {g} {velocity field : String}

theorem get?_turned (h : field ≠ velocity) (s : Store K domain) (component : ℕ) (x : Cell) :
    (s.turned g velocity).get? field component (g.cell x) = s.get? field component x := by
  have hother (axis : Axis) : ((velocity, (g.axis axis).index) == (field, component)) = false := by
    rw [beq_eq_false_iff_ne]
    exact fun heq => h (Prod.mk.inj heq).1.symm
  simp only [get?, turned, Axis.all, List.foldl_cons, List.foldl_nil, Std.HashMap.getElem?_alter,
    hother, Bool.false_eq_true, if_false, Std.HashMap.getElem?_map, Option.map_map]
  congr 1
  funext column
  exact get_turnColumn g id column x

theorem get?_turned_velocity (s : Store K domain) (axis : Axis) (x : Cell) :
    (s.turned g velocity).get? velocity (g.axis axis).index (g.cell x) =
      (s.get? velocity axis.index x).map (signed g axis) := by
  have hsame (other : Axis) :
      ((velocity, (g.axis other).index) == (velocity, (g.axis axis).index)) =
        decide (other = axis) := by
    rw [Bool.eq_iff_iff, beq_iff_eq, decide_eq_true_iff, Prod.mk.injEq, and_iff_right rfl]
    refine ⟨fun h => g.axis.injective (Option.some.inj ?_), fun h => h ▸ rfl⟩
    rw [← Axis.ofIndex?_index, h, Axis.ofIndex?_index]
  have hcolumn : (s.turned g velocity).columns[(velocity, (g.axis axis).index)]? =
      s.columns[(velocity, axis.index)]?.map (turnColumn g (signed g axis)) := by
    simp only [turned, Axis.all, List.foldl_cons, List.foldl_nil, Std.HashMap.getElem?_alter, hsame]
    cases axis <;> rfl
  rw [get?, hcolumn, Option.map_map, get?, Option.map_map]
  congr 1
  funext column
  exact get_turnColumn g (signed g axis) column x

theorem signed_eq [OrderedField K] [ExactScalar K] (axis : Axis) (a : K) :
    signed g axis a = ((g.sign axis : ℤ) : K) * a := by
  rcases Int.units_eq_one_or (g.sign axis) with h | h
  · rw [signed, if_pos h, h, Units.val_one, Int.cast_one, one_mul]
  · rw [signed, if_neg (h ▸ by decide), h, ExactScalar.neg_eq, Units.val_neg, Units.val_one,
      Int.cast_neg, Int.cast_one, neg_one_mul]

end Store

/-! ### Parts of a turned box -/

section Parts

variable {K : Type} [OrderedField K] (g : GridSymmetry)

theorem share_mul_units (e : ℤˣ) (m : ℤ) (a : K) : share (e * m) (((e : ℤ) : K) * a) = share m a := by
  rcases Int.units_eq_one_or e with rfl | rfl
  · simp
  · simp [share]

/-- A part of a turned box is the turned part. -/
theorem landed_turn (m : Offset) (u : PerAxis K) : landed (g.turn m) (g.turn u) = landed m u := by
  rw [landed, ← g.prod_axis, landed]
  refine congrArg List.prod (List.map_congr_left fun axis _ => ?_)
  rw [GridSymmetry.get_turn, GridSymmetry.get_turn, Int.cast_id, share_mul_units]

end Parts

/-! ### The flux through a face from both sides -/

section Face

variable {K : Type} [OrderedField K] {C P C' P' : Cell → K} {V V' : Cell → PerAxis K} {D Z : K}

theorem drivingForce_opposite (n : Offset) (x : Cell) :
    drivingForce C P Z (x + n) (-n) = -drivingForce C P Z x n := by
  rw [drivingForce, drivingForce, Cell.add_neg_cancel_right]
  ring

theorem advectiveFace_opposite (n : Offset) (x : Cell) :
    advectiveFace C V (-n) (x + n) = -advectiveFace C V n x := by
  rw [advectiveFace, advectiveFace, Cell.add_neg_cancel_right, Cell.neg_neg, neg_sub]

variable [Scalar K]

/-- The flux through the face towards `n`: diffusion, migration and advection. -/
def transportFace (C P : Cell → K) (V : Cell → PerAxis K) (D Z : K) (n : Offset) (x : Cell) : K :=
  -(D / n.norm) * drivingForce C P Z x n + advectiveFace C V n x

/-- Seen from its other side, the flux through a face is the opposite. -/
theorem transportFace_opposite (n : Offset) (x : Cell) :
    transportFace C P V D Z (-n) (x + n) = -transportFace C P V D Z n x := by
  rw [transportFace, transportFace, drivingForce_opposite, advectiveFace_opposite, Offset.norm,
    Offset.normSq_neg, Offset.norm]
  ring

/-- The flux through a turned face is the flux through the face. -/
theorem transportFace_turn (g : GridSymmetry) (hC : ∀ x, C' (g.cell x) = C x)
    (hP : ∀ x, P' (g.cell x) = P x) (hV : ∀ x, V' (g.cell x) = g.turn (V x)) (n : Offset) (x : Cell) :
    transportFace C' P' V' D Z (g.turn n) (g.cell x) = transportFace C P V D Z n x := by
  have hnorm : (Offset.norm (g.turn n) : K) = n.norm := by
    rw [Offset.norm, g.normSq_turn, Offset.norm]
  have hforce : drivingForce C' P' Z (g.cell x) (g.turn n) = drivingForce C P Z x n := by
    rw [drivingForce, drivingForce, ← g.cell_add, hC, hC, hP, hP]
  have hadvection : advectiveFace C' V' (g.turn n) (g.cell x) = advectiveFace C V n x := by
    rw [advectiveFace, advectiveFace, ← g.cell_add, ← g.turn_neg, hC, hC, hV, hV, landed_turn,
      landed_turn]
  rw [transportFace, transportFace, hnorm, hforce, hadvection]

end Face

/-! ### The balance of all neighbours -/

section Balance

variable {K : Type} [OrderedField K] [Scalar K] {C C' : Cell → K} {face face' : Offset → Cell → K}

/-- With opposite fluxes from the two sides of a face, a cell loses what flows out through the faces
to all its neighbours. -/
theorem FiniteVolume.stepped_eq (stencil : Stencil) (C : Cell → K)
    (hopposite : ∀ n x, face (-n) (x + n) = -face n x) (x : Cell) :
    stepped stencil C face x =
      C x - (stencil.offsets.map fun n => face n x).sum *
        Scalar.div Scalar.one stencil.faceArea := by
  have hbehind (n : Offset) : face n (x + -n) = -face (-n) x := by
    rw [← hopposite, Cell.neg_neg]
  have hsum : (stencil.staggered.map fun direction =>
      face direction.offset (x + -direction.offset) - face direction.offset x).sum =
      -(stencil.offsets.map fun n => face n x).sum := by
    rw [stencil.sum_offsets, ← neg_one_mul, ← List.sum_map_mul_left]
    refine congrArg List.sum (List.map_congr_left fun direction _ => ?_)
    rw [hbehind]
    ring
  rw [stepped, hsum, neg_mul, sub_eq_add_neg]

/-- A symmetry that keeps values and fluxes keeps what is left after a step. -/
theorem FiniteVolume.stepped_turn (stencil : Stencil) (g : GridSymmetry)
    (hopposite : ∀ n x, face (-n) (x + n) = -face n x)
    (hopposite' : ∀ n x, face' (-n) (x + n) = -face' n x) (hC : ∀ x, C' (g.cell x) = C x)
    (hface : ∀ n x, face' (g.turn n) (g.cell x) = face n x) (x : Cell) :
    stepped stencil C' face' (g.cell x) = stepped stencil C face x := by
  rw [stepped_eq stencil C' hopposite', stepped_eq stencil C hopposite, hC,
    ← stencil.sum_offsets_turn g]
  simp only [hface]

end Balance

/-! ### A step -/

section Step

variable {K : Type} [OrderedField K] [Scalar K] [ExactScalar K] {domain : Domain}
  {s : Store K domain} {c v pot j : Field} {stencil : Stencil} {C P : Cell → K}
  {V : Cell → PerAxis K} {D Z : K}

/-- Without migration the potential is not even mentioned. -/
theorem transportFlux_of_mul_eq_zero (h : D * Z = 0) (c v pot pot' j : Field) :
    transportFlux c v pot j (.num D) (.num Z) = transportFlux c v pot' j (.num D) (.num Z) := by
  have hproduct : (num D : Expr K) * num Z = zero := by
    rw [num_mul_num, h, ← Scalar.zero_eq]
    rfl
  have hmigration (pot : Field) : diffusionFlux c.center pot.center (num D) (num Z) =
      PerAxis.ofFn fun axis => -(num D * (gradient c.center).get axis) - zero := by
    simp only [diffusionFlux, hproduct, Expr.zero_mul]
  rw [transportFlux, transportFlux, hmigration, hmigration]

omit [ExactScalar K] in
theorem transportFace_foldCell (hC : ∀ x n : Cell, C (domain.foldCell x + n) = C (x + n))
    (hP : ∀ x n : Cell, P (domain.foldCell x + n) = P (x + n))
    (hV : ∀ x n : Cell, V (domain.foldCell x + n) = V (x + n)) (n : Offset) (x : Cell) :
    transportFace C P V D Z n (domain.foldCell x) = transportFace C P V D Z n x := by
  have hC₀ := hC x 0
  have hP₀ := hP x 0
  rw [Cell.add_zero, Cell.add_zero] at hC₀ hP₀
  rw [transportFace, transportFace, advectiveFace_foldCell hC hV, drivingForce, drivingForce, hC, hP,
    hC₀, hP₀]

/-- Both sweeps of a step of transport, and what they leave. -/
theorem exists_transport_step (hj : j.kind = .flux stencil)
    (hcomponents : Axis.z.index < v.components) (hname : c.name ≠ j.name)
    (hC : c.HasValues s.get? C) (hP : pot.HasValues s.get? P)
    (hV : ∀ axis : Axis, ∀ x, s.get? v.name axis.index x = some ((V x).get axis)) (D Z : K)
    (b : Bindings K) :
    ∃ flux update s₁ s₂, transportFlux c v pot j (.num D) (.num Z) = .ok flux ∧
      concentrationUpdate c pot j (.num D) (.num Z) = .ok update ∧
      flux.sweepInterior s b = .ok s₁ ∧ update.sweepInterior s₁ b = .ok s₂ ∧
      ∀ x, s₂.get? c.name 0 x =
        some (FiniteVolume.stepped stencil C (transportFace C P V D Z) x) := by
  have hface : ∀ direction ∈ stencil.staggered, ∀ x,
      (transportValue c v pot (.num D) (.num Z) direction.offset).eval ⟨s.get?, b, x⟩ =
        .ok (transportFace C P V D Z direction.offset x) := by
    intro direction hdirection x
    exact eval_transportValue (Stencil.nonzeroAxes_ne_nil hdirection) hC hP (.num D) (.num Z)
      (eval_advectiveValue hC hV direction.offset)
  have hperiodic : ∀ n x, transportFace C P V D Z n (domain.foldCell x) =
      transportFace C P V D Z n x :=
    transportFace_foldCell (Store.periodic_of_get? hC) (Store.periodic_of_get? hP)
      (Store.periodic_of_velocity hV)
  obtain ⟨update, s₁, s₂, hupdate, hs₁, hs₂, hvalue⟩ := FiniteVolume.exists_step
    (v := ⟨c, diffusionFlux c.center pot.center (.num D) (.num Z)⟩) hj hname hC hface hperiodic
  exact ⟨_, update, s₁, s₂, transportFlux_eq hj hcomponents, hupdate, hs₁, hs₂, hvalue⟩

omit [OrderedField K] [ExactScalar K] in
theorem Store.turned_values (g : GridSymmetry) (h : c.name ≠ v.name) (hC : c.HasValues s.get? C) :
    c.HasValues (s.turned g v.name).get? fun y => C (g.preimage y) := by
  intro y
  have hcell := get?_turned (g := g) h s 0 (g.preimage y)
  rw [g.cell_preimage] at hcell
  rw [hcell, hC]

theorem Store.turned_velocity (g : GridSymmetry)
    (hV : ∀ axis : Axis, ∀ x, s.get? v.name axis.index x = some ((V x).get axis)) (axis : Axis)
    (y : Cell) : (s.turned g v.name).get? v.name axis.index y =
      some ((g.turn (V (g.preimage y))).get axis) := by
  obtain ⟨axis, rfl⟩ := g.axis.surjective axis
  have hcell : (s.turned g v.name).get? v.name (g.axis axis).index (g.cell (g.preimage y)) = _ :=
    get?_turned_velocity s axis (g.preimage y)
  rw [g.cell_preimage] at hcell
  rw [hcell, hV, Option.map_some, signed_eq, g.get_turn]

/-- **A step of transport commutes with the symmetries of the grid**: with values for the
concentration and the velocity, and for the potential if there is migration, both sweeps succeed on a
store and on the turned store, and then the turned cells hold what the cells hold. -/
theorem transport_step_turned (g : GridSymmetry) (s : Store K domain) (b : Bindings K)
    (c v pot j : Field) (D Z : K) (hj : j.kind = .flux stencil)
    (hcomponents : Axis.z.index < v.components) (hcj : c.name ≠ j.name) (hcv : c.name ≠ v.name)
    (hpv : pot.name ≠ v.name) (hc : ∀ x, (s.get? c.name 0 x).isSome)
    (hpot : D * Z ≠ 0 → ∀ x, (s.get? pot.name 0 x).isSome)
    (hv : ∀ axis : Axis, ∀ x, (s.get? v.name axis.index x).isSome) :
    ∃ flux update s₁ s₂ t₁ t₂, transportFlux c v pot j (.num D) (.num Z) = .ok flux ∧
      concentrationUpdate c pot j (.num D) (.num Z) = .ok update ∧
      flux.sweepInterior s b = .ok s₁ ∧ update.sweepInterior s₁ b = .ok s₂ ∧
      flux.sweepInterior (s.turned g v.name) b = .ok t₁ ∧ update.sweepInterior t₁ b = .ok t₂ ∧
      ∀ x, t₂.get? c.name 0 (g.cell x) = s₂.get? c.name 0 x := by
  -- Without migration the concentration can stand for the potential.
  obtain ⟨pot', hflux, hpv', hpot'⟩ : ∃ pot' : Field,
      transportFlux c v pot j (.num D) (.num Z) = transportFlux c v pot' j (.num D) (.num Z) ∧
        pot'.name ≠ v.name ∧ ∀ x, (s.get? pot'.name 0 x).isSome := by
    by_cases hzero : D * Z = 0
    · exact ⟨c, transportFlux_of_mul_eq_zero hzero c v pot c j, hcv, hc⟩
    · exact ⟨pot, rfl, hpv, hpot hzero⟩
  obtain ⟨C, hC⟩ := Store.exists_values hc
  obtain ⟨P, hP⟩ := Store.exists_values hpot'
  choose u hu using fun axis => Store.exists_values (hv axis)
  let V (x : Cell) : PerAxis K := PerAxis.ofFn fun axis => u axis x
  have hV (axis : Axis) (x : Cell) : s.get? v.name axis.index x = some ((V x).get axis) := by
    rw [hu, PerAxis.get_ofFn]
  obtain ⟨flux, update, s₁, s₂, hflux₁, hupdate₁, hs₁, hs₂, hvalue⟩ :=
    exists_transport_step hj hcomponents hcj hC hP hV D Z b
  obtain ⟨flux', update', t₁, t₂, hflux₂, hupdate₂, ht₁, ht₂, hturned⟩ :=
    exists_transport_step hj hcomponents hcj (Store.turned_values g hcv hC)
      (Store.turned_values g hpv' hP) (Store.turned_velocity g hV) D Z b
  obtain rfl : flux = flux' := Except.ok.inj (hflux₁.symm.trans hflux₂)
  obtain rfl : update = update' := Except.ok.inj (hupdate₁.symm.trans hupdate₂)
  refine ⟨flux, update, s₁, s₂, t₁, t₂, hflux.trans hflux₁, hupdate₁, hs₁, hs₂, ht₁, ht₂,
    fun x => ?_⟩
  have hkept {α : Type} (f : Cell → α) (x : Cell) : f (g.preimage (g.cell x)) = f x := by
    rw [g.preimage_cell]
  rw [hvalue, hturned, FiniteVolume.stepped_turn stencil g transportFace_opposite
    transportFace_opposite (hkept C) (transportFace_turn g (hkept C) (hkept P)
      (hkept fun y => g.turn (V y)))]

end Step

/-- All stencil directions at work in a narrow domain, with two axes exchanged and the third one
reversed. -/
theorem transport_step_turned_narrow :
    let g : GridSymmetry :=
      ⟨Equiv.swap .x .z, fun axis => if axis = .y then -1 else 1, ⟨3, -1, 2⟩⟩
    let s : Store ℝ .narrow :=
      ((Store.empty.fillWith "c" 0 fun x => (x.y + x.z * x.z : ℝ)).fillWith "phi" 0 fun x =>
        (x.z - 2 * x.y : ℝ)).fillVelocity "v" ⟨1 / 2, -1 / 3, 1 / 4⟩
    ∃ flux update s₁ s₂ t₁ t₂,
      transportFlux (.scalar "c") (.vector "v" 3) (.scalar "phi") (.flux "j" .d3q27) (.num 2)
        (.num (-1)) = .ok flux ∧
      concentrationUpdate (.scalar "c") (.scalar "phi") (.flux "j" .d3q27) (.num 2) (.num (-1)) =
        .ok update ∧
      flux.sweepInterior s ∅ = .ok s₁ ∧ update.sweepInterior s₁ ∅ = .ok s₂ ∧
      flux.sweepInterior (s.turned g "v") ∅ = .ok t₁ ∧ update.sweepInterior t₁ ∅ = .ok t₂ ∧
      ∀ x, t₂.get? "c" 0 (g.cell x) = s₂.get? "c" 0 x := by
  intro g s
  have hvalues (x : Cell) : (s.get? "c" 0 x).isSome ∧ (s.get? "phi" 0 x).isSome := by
    simp [s, Store.fillVelocity, Axis.all, Store.fill, Store.get?_fillWith]
  have hv (axis : Axis) (x : Cell) : (s.get? "v" axis.index x).isSome := by
    cases axis <;> simp [s, Store.fillVelocity, Axis.all, Store.fill, Store.get?_fillWith, Axis.index]
  exact transport_step_turned g s ∅ (.scalar "c") (.vector "v" 3) (.scalar "phi") (.flux "j" .d3q27)
    2 (-1) rfl (by decide) (by decide) (by decide) (by decide) (fun x => (hvalues x).1)
    (fun _ x => (hvalues x).2) hv

end Electrokinetics
