/-
**Folding touches the keys of draws and nothing else.**

The folding of a flux looks for coordinates in the counters of its draws and takes their remainders by
the extents.  On canonical values this is all that happens: the value of the folded flux is that of the
flux if the coordinates inside the counters of draws read as folded, and coordinates anywhere else,
field reads, channels, time steps and seeds as before.

Three things are not as one might expect.  The extents become part of the values of the flux and are
evaluated in its scope, so a subexpression that defines a name of an extent captures it.  A negative
multiple of the extent is folded to negative zero, which is the cell zero in a key, but not in a power.
And a draw that is nested in the time step or the seed of another draw is not reached, so its counters
stay unfolded.

Main definitions:

* `Expr.evalKeyed` — values with the coordinates inside the counters of draws given;
* `foldedCoordinate` — the double that a folded coordinate is.

Main results:

* `mapKeys_foldCounters_eq` — folding a canonical value is grafting;
* `foldRandomKeys_touches_keys_only` — the values, targets and reads of a folded flux;
* `evalAt_foldRandomKeys_interior` — nothing changes inside of the domain;
* `foldRandomKeys_captures` — an extent that is captured.
-/

import Electrokinetics.Noise.Folding
import Electrokinetics.Proofs.Collection
import Electrokinetics.Proofs.Expr.GivenResults
import Electrokinetics.Proofs.Expr.Lookup
import Electrokinetics.Proofs.Scalar.Remainder
import Electrokinetics.Proofs.Sweep.GhostLayers

set_option relaxedAutoImplicit false
set_option autoImplicit false

namespace Electrokinetics

variable {K : Type} [Scalar K]

/-! ### Coordinates that read as given -/

/-- The value of an expression in which all coordinates read as given, also those inside of draws. -/
def Expr.evalReading (v : Axis → K) (env : Env K) (e : Expr K) : Except (EvalError K) K :=
  e.evalWith (fun t => match t with
    | .counter axis => some (.ok (v axis))
    | _ => none) env

/-- The number that a key draws if the coordinates in its counters read as given.  Time step and seed
are evaluated as usual, so a draw that is nested in one of them keeps its coordinates as they are. -/
def RandomKey.evalReading (v : Axis → K) (env : Env K) (key : RandomKey (Expr K)) :
    Except (EvalError K) K := do
  let x ← KeyPart.counter.toInteger (← key.counters.x.evalReading v env)
  let y ← KeyPart.counter.toInteger (← key.counters.y.evalReading v env)
  let z ← KeyPart.counter.toInteger (← key.counters.z.evalReading v env)
  let t ← KeyPart.timeStep.toNatural (← key.timeStep.eval env)
  let s ← KeyPart.seed.toNatural (← key.seed.eval env)
  return unitDraw ⟨x, y, z⟩ key.channel t s

/-- The value of an expression in which the coordinates inside the counters of draws read as given, and
those anywhere else as usual.  Of draws that are nested in one another this is the outermost one: all
coordinates in its counters read as given, and none in its time step and seed, where the counters of
nested draws keep their coordinates unfolded. -/
def Expr.evalKeyed (v : Axis → K) (env : Env K) (e : Expr K) : Except (EvalError K) K :=
  e.evalWith (fun t => match t with
    | .random key => some (key.evalReading v env)
    | _ => none) env

section OwnCoordinates

variable {v : Axis → K} {env : Env K}

theorem Expr.evalReading_own (h : ∀ axis, v axis = Scalar.ofInt (env.cell.get axis)) (e : Expr K) :
    e.evalReading v env = e.eval env := by
  refine evalWith_eq_eval fun t _ r hr => ?_
  cases t with
  | counter axis =>
      cases hr
      rw [h axis]
      rfl
  | _ => cases hr

theorem RandomKey.evalReading_own (h : ∀ axis, v axis = Scalar.ofInt (env.cell.get axis))
    (key : RandomKey (Expr K)) : key.evalReading v env = (Expr.random key).eval env := by
  obtain ⟨⟨x, y, z⟩, channel, timeStep, seed⟩ := key
  rw [RandomKey.evalReading, Expr.evalReading_own h, Expr.evalReading_own h, Expr.evalReading_own h,
    Expr.eval]

/-- Where the given coordinates are those of the cell, nothing is different. -/
theorem Expr.evalKeyed_own (h : ∀ axis, v axis = Scalar.ofInt (env.cell.get axis)) (e : Expr K) :
    e.evalKeyed v env = e.eval env := by
  refine evalWith_eq_eval fun t _ r hr => ?_
  cases t with
  | random key =>
      cases hr
      exact key.evalReading_own h
  | _ => cases hr

end OwnCoordinates

/-! ### Folding as grafting -/

/-- What folding grafts onto a coordinate: its remainder by the extent. -/
def foldCounter? (extents : PerAxis (Expr K)) : Expr K → Option (Expr K)
  | .counter axis => some (.modulo (.counter axis) (extents.get axis))
  | _ => none

/-- What folding grafts onto a draw: the draw with folded counters. -/
def foldDraw? (extents : PerAxis (Expr K)) : Expr K → Option (Expr K)
  | .random key =>
    some (.random (key.mapCounters fun _ counter => counter.graft (foldCounter? extents)))
  | _ => none

section Grafts

open Electrokinetics.Expr

variable {extents : PerAxis (Expr K)}

omit [Scalar K] in
theorem isCounter_graft_foldCounter? (e : Expr K) :
    (e.graft (foldCounter? extents)).isCounter = false := by
  cases e <;> rfl

theorem isCounter_of_same {axis : Axis} {e : Expr K}
    (h : (counter axis).same e = true ∨ e.same (counter axis) = true) : e.isCounter = true := by
  cases e with
  | counter i => rfl
  | _ => simp [same] at h

/-- A remainder of a coordinate is what folding makes of that coordinate only, since no coordinate is
left to take another remainder of. -/
theorem eq_counter_of_same {axis : Axis} {e : Expr K}
    (h : (modulo (counter axis) (extents.get axis)).same (e.graft (foldCounter? extents)) = true ∨
      (e.graft (foldCounter? extents)).same (modulo (counter axis) (extents.get axis)) = true) :
    e = counter axis := by
  cases e with
  | counter i =>
      simp only [graft, foldCounter?, Option.getD_some, same, Bool.and_eq_true, beq_iff_eq] at h
      rcases h with h | h
      · rw [h.1]
      · rw [h.1]
  | modulo value modulus =>
      simp only [graft, same, Bool.and_eq_true] at h
      have hcounter := isCounter_of_same (h.imp And.left And.left)
      rw [isCounter_graft_foldCounter?] at hcounter
      cases hcounter
  | _ => simp [graft, foldCounter?, same] at h

variable (hplaces : ∀ axis, (extents.get axis).places = [])

include hplaces

theorem keepsShape_foldCounter? : KeepsShape (foldCounter? extents) where
  site {e} hsite := by
    cases e with
    | counter axis => cases hsite
    | _ => rfl
  kind {e u} h := by
    cases e with
    | counter axis =>
        cases h
        exact ⟨rfl, rfl, rfl⟩
    | _ => cases h
  places {e u} h := by
    cases e with
    | counter axis =>
        cases h
        change .counter axis :: (extents.get axis).places = [.counter axis]
        rw [hplaces]
    | _ => cases h
  same_left {e u} h e' hsame := by
    cases e with
    | counter axis =>
        cases h
        rw [eq_counter_of_same (.inl hsame), same, beq_self_eq_true]
    | _ => cases h
  same_right {e u} h e' hsame := by
    cases e with
    | counter axis =>
        cases h
        rw [eq_counter_of_same (.inr hsame), same, beq_self_eq_true]
    | _ => cases h

omit hplaces [Scalar K] in
theorem places_random_congr {key key' : RandomKey (Expr K)}
    (hcounters : ∀ axis, (key.counters.get axis).places = (key'.counters.get axis).places)
    (ht : key.timeStep.places = key'.timeStep.places) (hs : key.seed.places = key'.seed.places) :
    (random key).places = (random key').places := by
  obtain ⟨⟨x, y, z⟩, channel, t, s⟩ := key
  obtain ⟨⟨x', y', z'⟩, channel', t', s'⟩ := key'
  have hx := hcounters .x
  have hy := hcounters .y
  have hz := hcounters .z
  simp only [places, subterms, List.filter_cons, List.filter_append, isPlace, PerAxis.get,
    Bool.false_eq_true, if_false] at hx hy hz ht hs ⊢
  rw [hx, hy, hz, ht, hs]

/-- Keys are the same if their folded counters and all other parts are. -/
theorem same_of_mapCounters {key key' : RandomKey (Expr K)}
    (h : (random (key.mapCounters fun _ counter => counter.graft (foldCounter? extents))).same
      (random (key'.mapCounters fun _ counter => counter.graft (foldCounter? extents))) = true) :
    (random key).same (random key') = true := by
  have hf := keepsShape_foldCounter? hplaces
  obtain ⟨⟨x, y, z⟩, channel, t, s⟩ := key
  obtain ⟨⟨x', y', z'⟩, channel', t', s'⟩ := key'
  simp only [RandomKey.mapCounters, PerAxis.mapAxis, same, Bool.and_eq_true] at h ⊢
  obtain ⟨⟨⟨⟨⟨hx, hy⟩, hz⟩, hchannel⟩, ht⟩, hs⟩ := h
  exact ⟨⟨⟨⟨⟨hf.same_of_graft hx, hf.same_of_graft hy⟩, hf.same_of_graft hz⟩, hchannel⟩, ht⟩, hs⟩

theorem keepsShape_foldDraw? : KeepsShape (foldDraw? extents) where
  site {e} hsite := by
    cases e with
    | random key => cases hsite
    | _ => rfl
  kind {e u} h := by
    cases e with
    | random key =>
        cases h
        exact ⟨rfl, rfl, rfl⟩
    | _ => cases h
  places {e u} h := by
    cases e with
    | random key =>
        cases h
        refine places_random_congr (fun axis => ?_) rfl rfl
        rw [RandomKey.mapCounters, PerAxis.get_mapAxis]
        exact (keepsShape_foldCounter? hplaces).places_graft _
    | _ => cases h
  same_left {e u} h e' hsame := by
    cases e with
    | random key =>
        cases h
        cases e' with
        | random key' =>
            rw [graft_random] at hsame
            exact same_of_mapCounters hplaces hsame
        | _ => simp [graft, foldDraw?, same] at hsame
    | _ => cases h
  same_right {e u} h e' hsame := by
    cases e with
    | random key =>
        cases h
        cases e' with
        | random key' =>
            rw [graft_random] at hsame
            exact same_of_mapCounters hplaces hsame
        | _ => simp [graft, foldDraw?, same] at hsame
    | _ => cases h

/-! ### Folding a canonical value -/

variable [NeutralScalar K]

theorem foldCounters_eq {e : Expr K} (hc : e.Canonical) :
    foldCounters extents e = e.graft (foldCounter? extents) := by
  refine transform_eq_graft (keepsShape_foldCounter? hplaces) (fun t _ _ => ?_) hc
  cases t <;> rfl

/-- Folding a canonical value is grafting. -/
theorem mapKeys_foldCounters_eq {e : Expr K} (hc : e.Canonical) :
    e.mapKeys (fun key => key.mapCounters fun _ counter => foldCounters extents counter) =
      e.graft (foldDraw? extents) := by
  refine transform_eq_graft (keepsShape_foldDraw? hplaces) (fun t _ ht => ?_) hc
  cases t with
  | random key =>
      obtain ⟨-, hcounters, -, -⟩ := all_random.1 ht
      refine congrArg (fun counters => some (random { key with counters })) ?_
      refine PerAxis.ext_get fun axis => ?_
      rw [PerAxis.get_mapAxis, PerAxis.get_mapAxis]
      exact foldCounters_eq hplaces (hcounters axis)
  | _ => rfl

end Grafts

section Values

open Electrokinetics.Expr

variable {extents : PerAxis (Expr K)} {env : Env K} {v : Axis → K}
  (hfold : ∀ axis, (modulo (counter axis) (extents.get axis)).eval env = .ok (v axis))

include hfold

theorem eval_graft_foldCounter? (e : Expr K) :
    (e.graft (foldCounter? extents)).eval env = e.evalReading v env := by
  refine eval_graft fun t _ => ?_
  cases t with
  | counter axis => exact congrArg some (hfold axis).symm
  | _ => rfl

/-- A value with folded draws reads coordinates in the counters of draws as folded. -/
theorem eval_graft_foldDraw? (e : Expr K) :
    (e.graft (foldDraw? extents)).eval env = e.evalKeyed v env := by
  refine eval_graft fun t _ => ?_
  cases t with
  | random key =>
      obtain ⟨⟨x, y, z⟩, channel, timeStep, seed⟩ := key
      refine congrArg some ?_
      simp only [RandomKey.evalReading, RandomKey.mapCounters, PerAxis.mapAxis, eval,
        eval_graft_foldCounter? hfold]
  | _ => rfl

end Values

/-! ### The folded flux -/

section Flux

variable [NeutralScalar K] {flux : Collection K} {extents : PerAxis (Expr K)}
  (hcanonical : ∀ e ∈ flux.values, e.Canonical)

include hcanonical

/-- A value without draws is left as it is. -/
theorem getElem?_values_foldRandomKeys {i : ℕ} {e : Expr K} (hi : flux.values[i]? = some e)
    (hdraws : ∀ key, .random key ∉ e.subterms) : (foldRandomKeys flux extents).values[i]? = some e := by
  rw [foldRandomKeys, Collection.mapKeys, Collection.values_mapValues, List.getElem?_map, hi]
  have hc := hcanonical e (List.mem_of_getElem? hi)
  refine congrArg some (Expr.transform_eq_self (fun t ht => ?_) hc)
  cases t with
  | random key => exact absurd ht (hdraws key)
  | _ => rfl

variable (hplaces : ∀ axis, (extents.get axis).places = [])

include hplaces

theorem reads_foldRandomKeys : (foldRandomKeys flux extents).reads = flux.reads := by
  refine Collection.reads_mapValues fun e he => ?_
  rw [mapKeys_foldCounters_eq hplaces (hcanonical e he)]
  exact (keepsShape_foldDraw? hplaces).accesses_graft e

/-- What a folded flux writes, if folded coordinates have given values whatever the subexpressions
bind. -/
theorem evalAt_foldRandomKeys {fields : FieldValues K} {b : Bindings K} {x : Cell} {v : Axis → K}
    (hfold : ∀ b', Collection.AgreeOff flux.names b b' → ∀ axis,
      (Expr.modulo (.counter axis) (extents.get axis)).eval ⟨fields, b', x⟩ = .ok (v axis)) :
    (foldRandomKeys flux extents).evalAt fields b x =
      flux.evalAtBy (Expr.evalKeyed v) fields b x := by
  refine Collection.evalAt_mapValues fun e he b' hb' => ?_
  rw [mapKeys_foldCounters_eq hplaces (hcanonical e he)]
  exact eval_graft_foldDraw? (hfold b' hb') e

end Flux

/-! ### Doubles -/

/-- The double that a folded coordinate is: the remainder by the extent, but negative zero for a
negative multiple of it. -/
def foldedCoordinate (L : Shape) (x : Cell) (axis : Axis) : Float :=
  if x.get axis < 0 ∧ (L.get axis : ℤ) ∣ x.get axis then Scalar.neg Scalar.zero
  else Scalar.ofInt (x.get axis % L.get axis)

/-- Expressions that stand for the extents of a domain in the scope of a flux: they do not change with
the cell, they have the extents as values, and the flux defines no name that they mention. -/
structure ExtentsIn (flux : Collection Float) (extents : PerAxis (Expr Float)) (L : Shape)
    (env : Env Float) : Prop where
  noAccess : ∀ axis, (extents.get axis).hasAccess = false
  noCounter : ∀ axis, (extents.get axis).hasCounter = false
  pos : ∀ axis, 0 < L.get axis
  lt : ∀ axis, L.get axis < extentBound
  value : ∀ axis, (extents.get axis).eval env = .ok (Scalar.ofInt (L.get axis))
  uncaptured : ∀ axis, ∀ s ∈ (extents.get axis).symbols, s.name ∉ flux.names

section Doubles

variable {flux : Collection Float} {extents : PerAxis (Expr Float)} {L : Shape}
  {fields : FieldValues Float} {b : Bindings Float} {x : Cell}

/-- In a key a folded coordinate counts as the integer that folding gives. -/
theorem toInteger_foldedCoordinate {domain : Domain} {axis : Axis}
    (hx : (x.get axis).natAbs ≤ exactBound) :
    KeyPart.counter.toInteger (foldedCoordinate domain.extent x axis) =
      .ok (domain.fold axis (x.get axis)) := by
  have hrem := toInteger_foldedCounter (K := Float) hx (domain.pos axis) (extent_lt domain axis)
  refine Eq.trans (congrArg _ ?_) hrem
  exact (Double.remainder_ofInt hx (domain.pos axis) (extent_lt domain axis)).symm

theorem ExtentsIn.places (h : ExtentsIn flux extents L ⟨fields, b, x⟩) (axis : Axis) :
    (extents.get axis).places = [] :=
  Expr.places_eq_nil (h.noAccess axis) (h.noCounter axis)

/-- Whatever the flux defines, coordinates are folded by the extents. -/
theorem ExtentsIn.eval_modulo (h : ExtentsIn flux extents L ⟨fields, b, x⟩)
    (hx : ∀ axis, (x.get axis).natAbs ≤ exactBound) {b' : Bindings Float}
    (hb' : Collection.AgreeOff flux.names b b') (axis : Axis) :
    (Expr.modulo (.counter axis) (extents.get axis)).eval ⟨fields, b', x⟩ =
      .ok (foldedCoordinate L x axis) := by
  have hvalue : (extents.get axis).eval ⟨fields, b', x⟩ = .ok (Scalar.ofInt (L.get axis)) := by
    rw [← h.value axis]
    exact Expr.eval_congr_bindings fun s hs => hb' s.name (h.uncaptured axis s hs)
  rw [eval_counter_modulo (h.pos axis) (h.lt axis) hvalue]
  exact congrArg _ (Double.remainder_ofInt (hx axis) (h.pos axis) (h.lt axis))

/-- The extents as parameters stand for the values that these are bound to, unless the flux defines one
of their names. -/
theorem extentsIn_extentParameters
    (hnames : ∀ axis, (Parameter.extent axis).name ∉ flux.names) (hpos : ∀ axis, 0 < L.get axis)
    (hlt : ∀ axis, L.get axis < extentBound)
    (hb : ∀ axis, b.get? (Parameter.extent axis).name = some (Scalar.ofInt (L.get axis))) :
    ExtentsIn flux extentParameters L ⟨fields, b, x⟩ where
  noAccess axis := by cases axis <;> rfl
  noCounter axis := by cases axis <;> rfl
  pos := hpos
  lt := hlt
  value axis := by
    rw [extentParameters, PerAxis.get_ofFn]
    exact Expr.eval_symbol (hb axis)
  uncaptured axis s hs := by
    rw [extentParameters, PerAxis.get_ofFn, Expr.mem_symbols] at hs
    cases List.mem_singleton.1 hs
    exact hnames axis

/-- **Folding touches the keys of draws and nothing else**: a flux with canonical values that is folded
by extents that it does not capture writes what the flux writes if the coordinates inside the counters
of draws read as folded.  It writes to the same places and reads the same fields, and values without
draws are as they were. -/
theorem foldRandomKeys_touches_keys_only (hcanonical : ∀ e ∈ flux.values, e.Canonical)
    (hextents : ExtentsIn flux extents L ⟨fields, b, x⟩)
    (hx : ∀ axis, (x.get axis).natAbs ≤ exactBound) :
    (foldRandomKeys flux extents).evalAt fields b x =
        flux.evalAtBy (Expr.evalKeyed (foldedCoordinate L x)) fields b x ∧
      (∀ domain : Domain, domain.extent = L → ∀ axis,
        KeyPart.counter.toInteger (foldedCoordinate L x axis) =
          .ok (domain.fold axis (x.get axis))) ∧
      (foldRandomKeys flux extents).targets = flux.targets ∧
      (foldRandomKeys flux extents).names = flux.names ∧
      (foldRandomKeys flux extents).reads = flux.reads ∧
      ∀ (i : ℕ) (e : Expr Float), flux.values[i]? = some e → (∀ key, .random key ∉ e.subterms) →
        (foldRandomKeys flux extents).values[i]? = some e := by
  refine ⟨evalAt_foldRandomKeys hcanonical hextents.places fun b' => hextents.eval_modulo hx, ?_,
    Collection.targets_mapValues _ _, Collection.names_mapValues _ _,
    reads_foldRandomKeys hcanonical hextents.places,
    fun i e => getElem?_values_foldRandomKeys hcanonical⟩
  rintro domain rfl axis
  exact toInteger_foldedCoordinate (hx axis)

/-- A flux that is a coordinate plus the random number of the cell. -/
def coordinateNoise : Collection Float :=
  .single ⟨⟨"j", 0, 0⟩, .sum [.counter .x, .random (.atCell 0 .zero .zero)]⟩

/-- Eight cells along every axis. -/
def eightCells : Bindings Float :=
  .ofList [("L_0", Scalar.ofInt 8), ("L_1", Scalar.ofInt 8), ("L_2", Scalar.ofInt 8)]

/-- In the ghost layer the draw is that of the image, and the coordinate beside it is that of the ghost
cell. -/
theorem foldRandomKeys_touches_keys_only_ghost :
    (foldRandomKeys coordinateNoise extentParameters).evalAt (fun _ _ _ => none) eightCells ⟨-1, 0, 0⟩ =
      .ok [(⟨"j", 0, 0⟩, Scalar.add (Scalar.ofInt (-1)) (unitDraw ⟨7, 0, 0⟩ 0 0 0))] := by
  have hcanonical : ∀ e ∈ coordinateNoise.values, e.Canonical := by decide
  have hextents : ExtentsIn coordinateNoise extentParameters ⟨8, 8, 8⟩
      ⟨fun _ _ _ => none, eightCells, ⟨-1, 0, 0⟩⟩ := by
    refine extentsIn_extentParameters (fun _ => List.not_mem_nil) ?_ ?_ ?_ <;> intro axis <;>
      cases axis <;> decide
  have hx : ∀ axis, ((⟨-1, 0, 0⟩ : Cell).get axis).natAbs ≤ exactBound := by
    intro axis
    cases axis <;> decide
  refine (foldRandomKeys_touches_keys_only hcanonical hextents hx).1.trans ?_
  decide +kernel

/-- The random number of the cell, beside a subexpression that defines the name of an extent. -/
def capturingNoise : Collection Float where
  main := [⟨⟨"j", 0, 0⟩, .random (.atCell 0 .zero .zero)⟩]
  subexpressions := [⟨⟨"L_0", .integer⟩, .num (Scalar.ofInt 3)⟩]
  nodup_targets := by simp
  nodup_names := by simp

/-- The extents are eight, but the flux takes its own name for the first of them and folds the cell five
onto the cell two. -/
theorem foldRandomKeys_captures :
    (∀ e ∈ capturingNoise.values, e.Canonical ∧ ∀ key, .random key ∈ e.subterms →
        ∀ part ∈ key.exprs, ∀ inner, .random inner ∉ part.subterms) ∧
      (∀ axis, (extentParameters.get axis : Expr Float).hasAccess = false ∧
        (extentParameters.get axis : Expr Float).hasCounter = false ∧
        (extentParameters.get axis).eval ⟨fun _ _ _ => none, eightCells, ⟨5, 0, 0⟩⟩ =
          .ok (Scalar.ofInt 8)) ∧
      (foldRandomKeys capturingNoise extentParameters).evalAt (fun _ _ _ => none) eightCells ⟨5, 0, 0⟩ =
        .ok [(⟨"j", 0, 0⟩, unitDraw ⟨2, 0, 0⟩ 0 0 0)] ∧
      capturingNoise.evalAtBy (Expr.evalKeyed (foldedCoordinate ⟨8, 8, 8⟩ ⟨5, 0, 0⟩))
          (fun _ _ _ => none) eightCells ⟨5, 0, 0⟩ =
        .ok [(⟨"j", 0, 0⟩, unitDraw ⟨5, 0, 0⟩ 0 0 0)] ∧
      (unitDraw ⟨2, 0, 0⟩ 0 0 0 : Float) ≠ unitDraw ⟨5, 0, 0⟩ 0 0 0 := by
  have hcanonical : ∀ e ∈ capturingNoise.values, e.Canonical := by decide
  refine ⟨fun e he => ⟨hcanonical e he, ?_⟩, ?_, by decide +kernel, by decide +kernel,
    by decide +kernel⟩
  · simp only [Collection.values, capturingNoise, List.map_cons, List.map_nil, List.singleton_append,
      List.mem_cons, List.not_mem_nil, or_false] at he
    rcases he with rfl | rfl
    · simp [Expr.subterms]
    · simp [Expr.subterms, RandomKey.atCell, RandomKey.exprs, PerAxis.ofFn, PerAxis.toList, Expr.zero]
  · intro axis
    cases axis <;> exact ⟨rfl, rfl, by decide⟩

/-- Inside of the domain a folded flux writes what the flux writes. -/
theorem evalAt_foldRandomKeys_interior (hcanonical : ∀ e ∈ flux.values, e.Canonical)
    (hextents : ExtentsIn flux extents L ⟨fields, b, x⟩)
    (hinterior : ∀ axis, 0 ≤ x.get axis ∧ x.get axis < L.get axis) :
    (foldRandomKeys flux extents).evalAt fields b x = flux.evalAt fields b x := by
  have hx (axis : Axis) : (x.get axis).natAbs ≤ exactBound := by
    have hinside := hinterior axis
    have hlt := hextents.lt axis
    simp only [exactBound, extentBound] at *
    omega
  have hown (axis : Axis) : foldedCoordinate L x axis = Scalar.ofInt (x.get axis) := by
    obtain ⟨hnonneg, hlt⟩ := hinterior axis
    rw [foldedCoordinate, if_neg fun h => absurd h.1 (Int.not_lt.2 hnonneg),
      Int.emod_eq_of_lt hnonneg hlt]
  rw [evalAt_foldRandomKeys hcanonical hextents.places fun b' => hextents.eval_modulo hx]
  exact Collection.evalAtBy_eq_evalAt fun e b' => e.evalKeyed_own hown

end Doubles

end Electrokinetics
