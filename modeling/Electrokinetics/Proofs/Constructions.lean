/-
**Everything that can be built has distinct targets and names.**

A collection holds the proofs that no location is written and no name is defined twice, so every
operation on collections has to supply them.  A draft is a collection without them: two lists, of which
nothing is known.  On drafts the operations only do what can be seen in the lists: some check them for
repetitions, and others change them and check nothing.  A construction is any finite composition of
operations.  Carried out on drafts it gives the lists of the collection that it builds, or the same
error, so that the checks between its steps never fail where the proofs say that they cannot, and the
steps without a check never repeat anything.

Main definitions:

* `Draft` — two lists, with the operations on them;
* `Construction` — compositions of operations, with `Construction.build` and `Construction.draft`.

Main results:

* `Draft.ofMain_eq`, `Draft.addFluxes_toDraft`, … — one for each operation;
* `Construction.draft_eq` — the two ways to carry out a construction agree;
* `Construction.distinct_and_first_repetition` — what is built is distinct, and what is reported if
  it is not.
-/

import Electrokinetics.Noise.Folding
import Electrokinetics.Proofs.Expr.Keeps
import Electrokinetics.Proofs.Transport.Faces
import Electrokinetics.Scalar.Double
import Electrokinetics.Transport.Reaction

set_option relaxedAutoImplicit false
set_option autoImplicit false

namespace Electrokinetics

variable {K : Type}

/-! ### Replacements with a memory -/

theorem map_mapIdx_eq_map {α β γ : Type} {g : ℕ → α → β} {f : β → γ} {h : α → γ}
    (hg : ∀ k a, f (g k a) = h a) (l : List α) : (l.mapIdx g).map f = l.map h :=
  List.ext_getElem (by simp) fun k _ _ => by simp [hg]

namespace Collection

/-- Replaces all values in order.  A replacement that remembers the values before may treat each one
differently, so it is given their number. -/
def mapValuesIdx (f : ℕ → Expr K → Expr K) (c : Collection K) : Collection K where
  main := c.main.mapIdx fun k a => ⟨a.target, f k a.value⟩
  subexpressions := c.subexpressions.mapIdx fun k s => ⟨s.symbol, f (c.main.length + k) s.value⟩
  nodup_targets := by
    rw [map_mapIdx_eq_map (h := Assignment.target)]
    · exact c.nodup_targets
    · exact fun _ _ => rfl
  nodup_names := by
    rw [map_mapIdx_eq_map (h := Subexpression.name)]
    · exact c.nodup_names
    · exact fun _ _ => rfl

theorem mapValuesIdx_const (c : Collection K) (f : Expr K → Expr K) :
    c.mapValuesIdx (fun _ => f) = c.mapValues f := by
  have hmap {α : Type} (g : α → α) (l : List α) : (l.mapIdx fun _ => g) = l.map g :=
    List.ext_getElem (by simp) fun k _ _ => by simp
  exact ext_lists (hmap _ _) (hmap _ _)

theorem withSubexpressions_eq_error_iff_repetition (c : Collection K)
    (subexpressions : List (Subexpression K)) (e : BuildError) :
    c.withSubexpressions subexpressions = .error e ↔
      ∃ before s after, subexpressions = before ++ s :: after ∧
        (before.map Subexpression.name).Nodup ∧ s.name ∈ before.map Subexpression.name ∧
          e = .duplicateSymbol s.name := by
  rw [withSubexpressions_eq_error_iff]
  constructor
  · rintro ⟨name, hname, rfl⟩
    obtain ⟨before, s, after, heq, hd, hm, rfl⟩ := (firstRepeat?_map_eq_some_iff _ _ _).1 hname
    exact ⟨before, s, after, heq, hd, hm, rfl⟩
  · rintro ⟨before, s, after, heq, hd, hm, rfl⟩
    exact ⟨s.name, (firstRepeat?_map_eq_some_iff _ _ _).2 ⟨before, s, after, heq, hd, hm, rfl⟩, rfl⟩

theorem exists_ofMain_iff (main : List (Assignment K)) :
    (∃ c, ofMain main = .ok c) ↔ (main.map Assignment.target).Nodup := by
  constructor
  · rintro ⟨c, hc⟩
    obtain ⟨rfl, -⟩ := (ofMain_eq_ok_iff _ _).1 hc
    exact c.nodup_targets
  · exact fun h => ⟨⟨main, [], h, List.nodup_nil⟩, (ofMain_eq_ok_iff _ _).2 ⟨rfl, rfl⟩⟩

theorem exists_withSubexpressions_iff (c : Collection K)
    (subexpressions : List (Subexpression K)) :
    (∃ d, c.withSubexpressions subexpressions = .ok d) ↔
      (subexpressions.map Subexpression.name).Nodup := by
  constructor
  · rintro ⟨d, hd⟩
    obtain ⟨-, rfl⟩ := withSubexpressions_eq_ok_iff.1 hd
    exact d.nodup_names
  · exact fun h => ⟨⟨c.main, subexpressions, c.nodup_targets, h⟩,
      withSubexpressions_eq_ok_iff.2 ⟨rfl, rfl⟩⟩

end Collection

/-! ### Drafts -/

/-- The assignments and the subexpressions of a kernel, of which nothing is known. -/
structure Draft (K : Type) where
  /-- The assignments, in order. -/
  main : List (Assignment K)
  /-- The subexpressions, in order. -/
  subexpressions : List (Subexpression K)

/-- The lists of a collection. -/
def Collection.toDraft (c : Collection K) : Draft K := ⟨c.main, c.subexpressions⟩

namespace Draft

/-- The locations that are written, in order. -/
def targets (d : Draft K) : List Access := d.main.map Assignment.target

/-- The names that are defined, in order. -/
def names (d : Draft K) : List String := d.subexpressions.map Subexpression.name

/-- No location is written twice, and no name is defined twice. -/
def Distinct (d : Draft K) : Prop := d.targets.Nodup ∧ d.names.Nodup

/-! ### Operations on drafts -/

/-- The draft of some assignments, if no location is written twice. -/
def ofMain (main : List (Assignment K)) : Except BuildError (Draft K) :=
  match firstRepeat? (main.map Assignment.target) with
  | some target => .error (.duplicateTarget target.text)
  | none => .ok ⟨main, []⟩

/-- The draft of one assignment. -/
def single (a : Assignment K) : Draft K := ⟨[a], []⟩

/-- The draft with other subexpressions, if no name is defined twice. -/
def withSubexpressions (d : Draft K) (subexpressions : List (Subexpression K)) :
    Except BuildError (Draft K) :=
  match firstRepeat? (subexpressions.map Subexpression.name) with
  | some name => .error (.duplicateSymbol name)
  | none => .ok ⟨d.main, subexpressions⟩

/-- Replaces all values in order. -/
def mapValues (f : ℕ → Expr K → Expr K) (d : Draft K) : Draft K where
  main := d.main.mapIdx fun k a => ⟨a.target, f k a.value⟩
  subexpressions := d.subexpressions.mapIdx fun k s => ⟨s.symbol, f (d.main.length + k) s.value⟩

/-- The draft of one assignment for each staggered direction of a stencil, if no face is written
twice. -/
def writeFaces (j : Field) (stencil : Stencil) (value : Offset → Expr K) :
    Except BuildError (Draft K) := do
  let main ← faceAssignments j stencil value
  ofMain main

variable [Scalar K]

/-- Replaces the keys of all random draws. -/
def mapKeys (f : RandomKey (Expr K) → RandomKey (Expr K)) (d : Draft K) : Draft K :=
  d.mapValues fun _ => Expr.mapKeys f

/-- The flux through every face. -/
def faceFlux (v : FiniteVolume K) (j : Field) : Except BuildError (Draft K) := do
  let stencil ← j.stencil
  writeFaces j stencil v.faceValue

/-- The update from a stored flux. -/
def update (v : FiniteVolume K) (j : Field) : Except BuildError (Draft K) := do
  let stencil ← j.stencil
  let faces ← FiniteVolume.balance j stencil
  let weight : K := Scalar.div Scalar.one stencil.faceArea
  ofMain [⟨v.field.centerAccess, v.field.center + .add faces * .num weight⟩]

/-- The flux by advection. -/
def advectiveFlux (j v c : Field) : Except BuildError (Draft K) := do
  let stencil ← j.stencil
  let _ ← v.access Axis.z.index 0
  writeFaces j stencil (advectiveValue v c)

/-- The sum of two fluxes. -/
def addFluxes (advective diffusive : Draft K) : Except BuildError (Draft K) :=
  if advective.main.length = diffusive.main.length then
    match firstMisaligned? 0 advective.main diffusive.main with
    | some (direction, a, b) => .error (.fluxTargetMismatch direction a.text b.text)
    | none => do
      let sum ← ofMain (addValues advective.main diffusive.main)
      sum.withSubexpressions (advective.subexpressions ++ diffusive.subexpressions)
  else .error (.fluxCountMismatch advective.main.length diffusive.main.length)

/-- The flux by diffusion, migration and advection. -/
def transportFlux (c v pot j : Field) (d z : Expr K) : Except BuildError (Draft K) := do
  let diffusive ← faceFlux ⟨c, diffusionFlux c.center pot.center d z⟩ j
  let advective ← advectiveFlux j v c
  addFluxes advective diffusive

/-- A flux with noise on every face. -/
def addNoise (flux : Draft K) (c j : Field) (d : Expr K) (factor : K) :
    Except BuildError (Draft K) := do
  let stencil ← j.stencil
  let directions := stencil.staggered
  if flux.main.length = directions.length then
    checkFaces j 0 flux.main
    let noisy ← ofMain (noisyValues c d factor directions flux.main)
    noisy.withSubexpressions (flux.subexpressions ++ (List.range directions.length).map noiseDraw)
  else .error (.directionCountMismatch j.name directions.length flux.main.length)

/-- Folds the counters of all random keys. -/
def foldRandomKeys (flux : Draft K) (extents : PerAxis (Expr K)) : Draft K :=
  flux.mapKeys fun key => key.mapCounters fun _ counter => foldCounters extents counter

/-- The reaction flux of every species. -/
def massAction (concentrations fluxes : List Field) (rate : Expr K)
    (coefficients orders : List (Expr K)) : Except BuildError (Draft K) :=
  let species := concentrations.length
  if species = 0 then .error .noSpecies
  else if fluxes.length ≠ species ∨ coefficients.length ≠ species ∨ orders.length ≠ species then
    .error (.speciesMismatch species fluxes.length coefficients.length orders.length)
  else
    let speed := reactionSpeed concentrations rate orders
    ofMain (List.zipWith
      (fun (r : Field) coefficient => ⟨r.centerAccess, speed * coefficient⟩)
      fluxes coefficients)

/-- Adds the charge of a species to the charge density. -/
def chargeUpdate (q c : Field) (z : Expr K) : Draft K :=
  single ⟨q.centerAccess, q.center + z * c.center⟩

/-- Adds a reaction flux to a concentration. -/
def reactionUpdate (c r : Field) : Draft K :=
  single ⟨c.centerAccess, c.center + r.center⟩

/-! ### The operations on the lists of collections -/

section Checks

omit [Scalar K]

/-- The check for distinct targets does not fail. -/
theorem ofMain_of_nodup {main : List (Assignment K)}
    (h : (main.map Assignment.target).Nodup) : ofMain main = .ok ⟨main, []⟩ := by
  rw [ofMain, (firstRepeat?_eq_none_iff _).2 h]

theorem ofMain_eq (main : List (Assignment K)) :
    ofMain main = (Collection.ofMain main).map Collection.toDraft := by
  unfold Collection.ofMain
  split
  · rename_i target h
    rw [ofMain, h]
    rfl
  · rename_i h
    exact ofMain_of_nodup ((firstRepeat?_eq_none_iff _).1 h)

/-- The check for distinct names does not fail. -/
theorem withSubexpressions_of_nodup (d : Draft K) {subexpressions : List (Subexpression K)}
    (h : (subexpressions.map Subexpression.name).Nodup) :
    d.withSubexpressions subexpressions = .ok ⟨d.main, subexpressions⟩ := by
  rw [withSubexpressions, (firstRepeat?_eq_none_iff _).2 h]

theorem withSubexpressions_toDraft (c : Collection K) (subexpressions : List (Subexpression K)) :
    c.toDraft.withSubexpressions subexpressions =
      (c.withSubexpressions subexpressions).map Collection.toDraft := by
  unfold Collection.withSubexpressions
  split
  · rename_i name h
    change firstRepeat? (subexpressions.map Subexpression.name) = _ at h
    rw [withSubexpressions, h]
    rfl
  · rename_i h
    exact withSubexpressions_of_nodup _ ((firstRepeat?_eq_none_iff _).1 h)

/-- After the same step a draft is made where a collection is made. -/
theorem bind_eq_map {α : Type} {x : Except BuildError α} {f : α → Except BuildError (Draft K)}
    {g : α → Except BuildError (Collection K)} (h : ∀ a, f a = (g a).map Collection.toDraft) :
    (x >>= f) = (x >>= g).map Collection.toDraft := by
  cases x with
  | error e => rfl
  | ok a => exact h a

/-- What is done next with a draft is what is done next with the collection. -/
theorem bind_toDraft {x : Except BuildError (Collection K)}
    {f : Draft K → Except BuildError (Draft K)}
    {g : Collection K → Except BuildError (Collection K)}
    (h : ∀ c : Collection K, f c.toDraft = (g c).map Collection.toDraft) :
    (x.map Collection.toDraft >>= f) = (x >>= g).map Collection.toDraft := by
  cases x with
  | error e => rfl
  | ok c => exact h c

end Checks

theorem mapKeys_toDraft (f : RandomKey (Expr K) → RandomKey (Expr K)) (c : Collection K) :
    c.toDraft.mapKeys f = (c.mapKeys f).toDraft := by
  rw [Collection.mapKeys, ← Collection.mapValuesIdx_const]
  rfl

omit [Scalar K] in
theorem writeFaces_eq (j : Field) (stencil : Stencil) (value : Offset → Expr K) :
    writeFaces j stencil value = (Collection.writeFaces j stencil value).map Collection.toDraft :=
  bind_eq_map ofMain_eq

theorem faceFlux_eq (v : FiniteVolume K) (j : Field) :
    faceFlux v j = (v.faceFlux j).map Collection.toDraft :=
  bind_eq_map fun stencil => writeFaces_eq j stencil v.faceValue

theorem update_eq (v : FiniteVolume K) (j : Field) :
    update v j = (v.update j).map Collection.toDraft :=
  bind_eq_map fun _ => bind_eq_map fun _ => ofMain_eq _

theorem advectiveFlux_eq (j v c : Field) :
    advectiveFlux (K := K) j v c = (Electrokinetics.advectiveFlux j v c).map Collection.toDraft :=
  bind_eq_map fun stencil => bind_eq_map fun _ => writeFaces_eq j stencil (advectiveValue v c)

theorem addFluxes_toDraft (advective diffusive : Collection K) :
    addFluxes advective.toDraft diffusive.toDraft =
      (Electrokinetics.addFluxes advective diffusive).map Collection.toDraft := by
  rw [addFluxes, Electrokinetics.addFluxes]
  by_cases hlength : advective.main.length = diffusive.main.length
  · have hlists : advective.toDraft.main.length = diffusive.toDraft.main.length := hlength
    rw [if_pos hlists, dif_pos hlength]
    have hnodup : ((addValues advective.main diffusive.main).map Assignment.target).Nodup := by
      rw [map_target_addValues hlength]
      exact advective.nodup_targets
    change (match firstMisaligned? 0 advective.main diffusive.main with
      | some (direction, a, b) => _
      | none => ofMain (addValues advective.main diffusive.main) >>= fun sum => _) = _
    rw [ofMain_of_nodup hnodup]
    cases firstMisaligned? 0 advective.main diffusive.main with
    | some difference => rfl
    | none => exact withSubexpressions_toDraft ⟨_, [], hnodup, List.nodup_nil⟩ _
  · have hlists : ¬ advective.toDraft.main.length = diffusive.toDraft.main.length := hlength
    rw [if_neg hlists, dif_neg hlength]
    rfl

theorem addNoise_toDraft (flux : Collection K) (c j : Field) (d : Expr K) (factor : K) :
    addNoise flux.toDraft c j d factor =
      (Electrokinetics.addNoise flux c j d factor).map Collection.toDraft := by
  refine bind_eq_map fun stencil => ?_
  change ite _ _ _ = Except.map _ (dite _ _ _)
  by_cases hlength : flux.main.length = stencil.staggered.length
  · have hlist : flux.toDraft.main.length = stencil.staggered.length := hlength
    rw [if_pos hlist, dif_pos hlength]
    have hnodup : ((noisyValues c d factor stencil.staggered flux.main).map
        Assignment.target).Nodup := by
      rw [map_target_noisyValues c d factor hlength]
      exact flux.nodup_targets
    refine bind_eq_map fun _ => ?_
    change ofMain (noisyValues c d factor stencil.staggered flux.main) >>= _ = _
    rw [ofMain_of_nodup hnodup]
    exact withSubexpressions_toDraft ⟨_, [], hnodup, List.nodup_nil⟩ _
  · have hlist : ¬ flux.toDraft.main.length = stencil.staggered.length := hlength
    rw [if_neg hlist, dif_neg hlength]
    rfl

theorem massAction_eq (concentrations fluxes : List Field) (rate : Expr K)
    (coefficients orders : List (Expr K)) :
    massAction concentrations fluxes rate coefficients orders =
      (Electrokinetics.massAction concentrations fluxes rate coefficients orders).map
        Collection.toDraft := by
  unfold massAction Electrokinetics.massAction
  simp only
  split
  · rfl
  · split
    · rfl
    · exact ofMain_eq _

theorem transportFlux_eq (c v pot j : Field) (d z : Expr K) :
    transportFlux c v pot j d z =
      (Electrokinetics.transportFlux c v pot j d z).map Collection.toDraft := by
  rw [transportFlux, Electrokinetics.transportFlux, faceFlux_eq, advectiveFlux_eq]
  exact bind_toDraft fun diffusive => bind_toDraft fun advective =>
    addFluxes_toDraft advective diffusive

end Draft

/-! ### Constructions -/

/-- A finite composition of the operations that make collections. -/
inductive Construction (K : Type) where
  /-- The collection of some assignments. -/
  | ofMain (main : List (Assignment K))
  /-- The collection of one assignment. -/
  | single (a : Assignment K)
  /-- Other subexpressions. -/
  | withSubexpressions (t : Construction K) (subexpressions : List (Subexpression K))
  /-- Other values. -/
  | mapValues (f : ℕ → Expr K → Expr K) (t : Construction K)
  /-- Other keys of the random draws.  What a replacement of keys with a memory does to the values is
  among the replacements of values. -/
  | mapKeys (f : RandomKey (Expr K) → RandomKey (Expr K)) (t : Construction K)
  /-- The flux through every face. -/
  | faceFlux (v : FiniteVolume K) (j : Field)
  /-- The update from a stored flux. -/
  | update (v : FiniteVolume K) (j : Field)
  /-- The flux by advection. -/
  | advectiveFlux (j v c : Field)
  /-- The sum of two fluxes. -/
  | addFluxes (advective diffusive : Construction K)
  /-- The flux by diffusion, migration and advection. -/
  | transportFlux (c v pot j : Field) (d z : Expr K)
  /-- A flux with noise. -/
  | addNoise (flux : Construction K) (c j : Field) (d : Expr K) (factor : K)
  /-- Folded random keys. -/
  | foldRandomKeys (flux : Construction K) (extents : PerAxis (Expr K))
  /-- The reaction fluxes of some species. -/
  | massAction (concentrations fluxes : List Field) (rate : Expr K)
      (coefficients orders : List (Expr K))
  /-- The update of the charge density. -/
  | chargeUpdate (q c : Field) (z : Expr K)
  /-- The update of a concentration by a reaction. -/
  | reactionUpdate (c r : Field)

namespace Construction

variable [Scalar K]

/-- Carries out a construction on collections. -/
def build : Construction K → Except BuildError (Collection K)
  | .ofMain main => Collection.ofMain main
  | .single a => .ok (.single a)
  | .withSubexpressions t subexpressions => do (← t.build).withSubexpressions subexpressions
  | .mapValues f t => do return (← t.build).mapValuesIdx f
  | .mapKeys f t => do return (← t.build).mapKeys f
  | .faceFlux v j => v.faceFlux j
  | .update v j => v.update j
  | .advectiveFlux j v c => Electrokinetics.advectiveFlux j v c
  | .addFluxes t u => do Electrokinetics.addFluxes (← t.build) (← u.build)
  | .transportFlux c v pot j d z => Electrokinetics.transportFlux c v pot j d z
  | .addNoise t c j d factor => do Electrokinetics.addNoise (← t.build) c j d factor
  | .foldRandomKeys t extents => do return Electrokinetics.foldRandomKeys (← t.build) extents
  | .massAction concentrations fluxes rate coefficients orders =>
    Electrokinetics.massAction concentrations fluxes rate coefficients orders
  | .chargeUpdate q c z => .ok (Electrokinetics.chargeUpdate q c z)
  | .reactionUpdate c r => .ok (Electrokinetics.reactionUpdate c r)

/-- A replacement without a memory is the usual one. -/
theorem build_mapValues_const (f : Expr K → Expr K) (t : Construction K) :
    (mapValues (fun _ => f) t).build = t.build.map (Collection.mapValues f) := by
  rw [build]
  cases t.build with
  | error e => rfl
  | ok c => exact congrArg Except.ok (c.mapValuesIdx_const f)

/-- Carries out a construction on drafts. -/
def draft : Construction K → Except BuildError (Draft K)
  | .ofMain main => Draft.ofMain main
  | .single a => .ok (.single a)
  | .withSubexpressions t subexpressions => do (← t.draft).withSubexpressions subexpressions
  | .mapValues f t => do return (← t.draft).mapValues f
  | .mapKeys f t => do return (← t.draft).mapKeys f
  | .faceFlux v j => Draft.faceFlux v j
  | .update v j => Draft.update v j
  | .advectiveFlux j v c => Draft.advectiveFlux j v c
  | .addFluxes t u => do Draft.addFluxes (← t.draft) (← u.draft)
  | .transportFlux c v pot j d z => Draft.transportFlux c v pot j d z
  | .addNoise t c j d factor => do Draft.addNoise (← t.draft) c j d factor
  | .foldRandomKeys t extents => do return Draft.foldRandomKeys (← t.draft) extents
  | .massAction concentrations fluxes rate coefficients orders =>
    Draft.massAction concentrations fluxes rate coefficients orders
  | .chargeUpdate q c z => .ok (Draft.chargeUpdate q c z)
  | .reactionUpdate c r => .ok (Draft.reactionUpdate c r)

/-- Carried out on drafts, a construction gives the lists of the collection that it builds, or fails
with the same error. -/
theorem draft_eq (t : Construction K) : t.draft = t.build.map Collection.toDraft := by
  induction t with
  | ofMain main => exact Draft.ofMain_eq main
  | single a => rfl
  | withSubexpressions t subexpressions ih =>
      rw [draft, build, ih]
      exact Draft.bind_toDraft fun c => Draft.withSubexpressions_toDraft c subexpressions
  | mapValues f t ih =>
      rw [draft, build, ih]
      exact Draft.bind_toDraft fun c => rfl
  | mapKeys f t ih =>
      rw [draft, build, ih]
      exact Draft.bind_toDraft fun c => congrArg Except.ok (Draft.mapKeys_toDraft f c)
  | faceFlux v j => exact Draft.faceFlux_eq v j
  | update v j => exact Draft.update_eq v j
  | advectiveFlux j v c => exact Draft.advectiveFlux_eq j v c
  | addFluxes t u iht ihu =>
      rw [draft, build, iht, ihu]
      exact Draft.bind_toDraft fun advective => Draft.bind_toDraft fun diffusive =>
        Draft.addFluxes_toDraft advective diffusive
  | transportFlux c v pot j d z => exact Draft.transportFlux_eq c v pot j d z
  | addNoise t c j d factor ih =>
      rw [draft, build, ih]
      exact Draft.bind_toDraft fun flux => Draft.addNoise_toDraft flux c j d factor
  | foldRandomKeys t extents ih =>
      rw [draft, build, ih]
      exact Draft.bind_toDraft fun c => congrArg Except.ok (Draft.mapKeys_toDraft _ c)
  | massAction concentrations fluxes rate coefficients orders =>
      exact Draft.massAction_eq concentrations fluxes rate coefficients orders
  | chargeUpdate q c z => rfl
  | reactionUpdate c r => rfl

/-- The lists that are obtained are those of a collection. -/
theorem distinct_of_draft {t : Construction K} {d : Draft K} (h : t.draft = .ok d) : d.Distinct := by
  rw [draft_eq] at h
  cases hbuild : t.build with
  | error e =>
      rw [hbuild] at h
      cases h
  | ok c =>
      rw [hbuild] at h
      cases h
      exact ⟨c.nodup_targets, c.nodup_names⟩

/-- **Targets and names stay distinct**: whatever is obtained by a finite composition of the
operations, carried out on bare lists, has distinct targets and distinct names, and is what the
composition builds on collections.  The collection of some assignments exists exactly if their targets
are distinct, and otherwise the first assignment is reported whose target occurred before; and
likewise for subexpressions and their names. -/
theorem distinct_and_first_repetition :
    (∀ t : Construction K, t.draft = t.build.map Collection.toDraft) ∧
    (∀ (f : Expr K → Expr K) (t : Construction K),
      (mapValues (fun _ => f) t).build = t.build.map (Collection.mapValues f)) ∧
    (∀ (t : Construction K) (d : Draft K), t.draft = .ok d → d.Distinct) ∧
    (∀ main : List (Assignment K),
      ((∃ c, Collection.ofMain main = .ok c) ↔ (main.map Assignment.target).Nodup) ∧
      ∀ e, Collection.ofMain main = .error e ↔
        ∃ before a after, main = before ++ a :: after ∧ (before.map Assignment.target).Nodup ∧
          a.target ∈ before.map Assignment.target ∧ e = .duplicateTarget a.target.text) ∧
    ∀ (c : Collection K) (subexpressions : List (Subexpression K)),
      ((∃ d, c.withSubexpressions subexpressions = .ok d) ↔
        (subexpressions.map Subexpression.name).Nodup) ∧
      ∀ e, c.withSubexpressions subexpressions = .error e ↔
        ∃ before s after, subexpressions = before ++ s :: after ∧
          (before.map Subexpression.name).Nodup ∧ s.name ∈ before.map Subexpression.name ∧
            e = .duplicateSymbol s.name :=
  ⟨draft_eq, build_mapValues_const, fun _ _ => distinct_of_draft,
    fun main => ⟨Collection.exists_ofMain_iff main, Collection.ofMain_eq_error_iff main⟩,
    fun c subexpressions => ⟨c.exists_withSubexpressions_iff subexpressions,
      c.withSubexpressions_eq_error_iff_repetition subexpressions⟩⟩

/-- A noisy transport flux with folded keys is obtained on bare lists, and of three assignments the
third is reported if it writes what the first writes. -/
theorem distinct_and_first_repetition_noisy :
    let j := Field.flux "j" .d3q19
    let t : Construction Float := .foldRandomKeys
      (.addNoise (.transportFlux (.scalar "c") (.vector "u" 3) (.scalar "pot") j (.real "D")
        (.real "z")) (.scalar "c") j (.real "D") Scalar.one)
      (PerAxis.ofFn fun _ => .integer "L")
    let write (field : String) : Assignment Float := ⟨⟨field, 0, 0⟩, .zero⟩
    (∃ d, t.draft = .ok d ∧ d.Distinct) ∧
      Collection.ofMain [write "c", write "q", write "c"] =
        .error (.duplicateTarget (write "c").target.text) := by
  intro j t write
  obtain ⟨hdraft, -, hdistinct, hofMain, -⟩ := distinct_and_first_repetition (K := Float)
  have hbuild : ∃ c, t.build = .ok c :=
    ⟨_, bind_eq_ok.2 ⟨_, bind_eq_ok.2 ⟨_, Electrokinetics.transportFlux_eq rfl (by decide),
      addNoise_ofFaces _ rfl _ _⟩, rfl⟩⟩
  obtain ⟨c, hc⟩ := hbuild
  have hd : t.draft = .ok c.toDraft := by
    rw [hdraft, hc]
    rfl
  exact ⟨⟨_, hd, hdistinct t _ hd⟩,
    ((hofMain _).2 _).2 ⟨[write "c", write "q"], write "c", [], rfl, by decide, by decide, rfl⟩⟩

end Construction

end Electrokinetics
