/-
**The fluxes that the builders give.**

The builders of fluxes check their arguments: that a field has faces, that it has the face of every
direction, that two fluxes write the same faces in the same order, that no name is used twice.  A flux
field has one component for each direction, so every face that is looked up is there, and fluxes that
were built face by face pass every other check: their sums and their noisy versions exist and are again
built face by face.

Main definitions:

* `Collection.ofFaces` — one assignment for each face of a flux field;
* `FiniteVolume.faceValue`, `advectiveValue`, `transportValue` — the values on one face;
* `FiniteVolume.faceBalance` — inflow minus outflow, for each face;
* `noisyFaces` — a flux with noise on every face.

Main results:

* `Field.face_of_lt` — a flux field has all its faces;
* `checkFaces_eq` — the check for misplaced assignments is the search for a difference;
* `Collection.writeFaces_eq` — the assignments to all faces make a collection;
* `FiniteVolume.faceFlux_eq`, `advectiveFlux_eq`, `transportFlux_eq`, `FiniteVolume.update_eq` — the
  deterministic fluxes, and the update;
* `addFluxes_ofFaces`, `addNoise_ofFaces` — sums, and noise on top.
-/

import Electrokinetics.Noise.Fluctuation
import Electrokinetics.Proofs.FirstOffender
import Electrokinetics.Transport.AdvectionDiffusion
import Std.Data.String.ToNat

set_option relaxedAutoImplicit false
set_option autoImplicit false

namespace Electrokinetics

/-! ### Checks -/

theorem Collection.withSubexpressions_eq_ok_iff {K : Type} {c d : Collection K}
    {subexpressions : List (Subexpression K)} :
    c.withSubexpressions subexpressions = .ok d ↔
      d.main = c.main ∧ d.subexpressions = subexpressions := by
  unfold withSubexpressions
  split
  · rename_i name h
    constructor
    · intro hd
      cases hd
    · rintro ⟨-, rfl⟩
      rw [(firstRepeat?_eq_none_iff _).2 d.nodup_names] at h
      cases h
  · constructor
    · intro hd
      cases hd
      exact ⟨rfl, rfl⟩
    · rintro ⟨hmain, hsubexpressions⟩
      exact congrArg Except.ok (ext_lists hmain.symm hsubexpressions.symm)

theorem Collection.withSubexpressions_eq_error_iff {K : Type} {c : Collection K}
    {subexpressions : List (Subexpression K)} {e : BuildError} :
    c.withSubexpressions subexpressions = .error e ↔
      ∃ name, firstRepeat? (subexpressions.map fun s => s.symbol.name) = some name ∧
        e = .duplicateSymbol name := by
  unfold withSubexpressions
  split
  · rename_i name h
    rw [h, Except.error.injEq]
    constructor
    · rintro rfl
      exact ⟨name, rfl, rfl⟩
    · rintro ⟨_, hname, rfl⟩
      cases hname
      rfl
  · rename_i h
    refine iff_of_false nofun fun ⟨name, hname, _⟩ => ?_
    rw [h] at hname
    cases hname

theorem firstMisaligned?_eq {K : Type} (as bs : List (Assignment K)) (position : Nat) :
    firstMisaligned? position as bs =
      firstDifference? position (as.map Assignment.target) (bs.map Assignment.target) := by
  induction as generalizing bs position with
  | nil => rfl
  | cons a as ih =>
      cases bs with
      | nil => rfl
      | cons b bs => rw [firstMisaligned?, ih, List.map_cons, List.map_cons, firstDifference?]

theorem firstMisaligned?_eq_none_iff {K : Type} {as bs : List (Assignment K)}
    (h : as.length = bs.length) (position : Nat) :
    firstMisaligned? position as bs = none ↔
      as.map Assignment.target = bs.map Assignment.target := by
  rw [firstMisaligned?_eq, firstDifference?_eq_none_iff]
  rw [List.length_map, List.length_map, h]

theorem noiseName_injective {i k : Nat} (h : noiseName i = noiseName k) : i = k :=
  Nat.repr_injective ((String.append_right_inj "xi_").1 h)

theorem nodup_noiseNames (n : Nat) : ((List.range n).map noiseName).Nodup :=
  List.Pairwise.map _ (fun _ _ hik h => hik (noiseName_injective h)) List.nodup_range

theorem map_name_noiseDraws {K : Type} (n : Nat) :
    (((List.range n).map (noiseDraw (K := K))).map fun s => s.symbol.name) =
      (List.range n).map noiseName := by
  rw [List.map_map]
  rfl

theorem nodup_noiseDraws {K : Type} (n : Nat) :
    (((List.range n).map (noiseDraw (K := K))).map fun s => s.symbol.name).Nodup := by
  rw [map_name_noiseDraws]
  exact nodup_noiseNames n

/-! ### Faces -/

section Faces

variable {j : Field} {stencil : Stencil} (hj : j.kind = .flux stencil)

include hj

theorem Field.components_of_flux : j.components = stencil.staggered.length := by
  rw [components, hj]
  rfl

/-- A flux field has the face of every direction. -/
theorem Field.face_of_lt {k : Nat} (hk : k < stencil.staggered.length) (n : Offset) :
    j.face k n = .ok (j.location k n) := by
  have hcomponent : k < j.components := by rwa [components_of_flux hj]
  rw [face, (j.stencil_eq_ok_iff stencil).2 hj]
  exact (j.access_eq_ok_iff k n _).2 ⟨hcomponent, rfl⟩

theorem Field.face_of_mem {direction : Direction} {k : Nat}
    (h : (direction, k) ∈ stencil.staggered.zipIdx) (n : Offset) :
    j.face k n = .ok (j.location k n) :=
  face_of_lt hj (List.snd_lt_of_mem_zipIdx h) n

end Faces

theorem mapM_eq_ok {ε α β : Type} {f : α → Except ε β} {g : α → β} {items : List α}
    (h : ∀ a ∈ items, f a = .ok (g a)) : items.mapM f = .ok (items.map g) := by
  induction items with
  | nil => rfl
  | cons a items ih =>
      rw [List.mapM_cons, h a List.mem_cons_self,
        ih fun b hb => h b (List.mem_cons_of_mem _ hb)]
      rfl

/-- The faces that a flux should write from direction `k` on. -/
def Field.facesFrom (j : Field) (k n : Nat) : List Access :=
  (List.range' k n).map fun i => j.location i 0

theorem Field.facesFrom_succ (j : Field) (k n : Nat) :
    j.facesFrom k (n + 1) = j.location k 0 :: j.facesFrom (k + 1) n := rfl

theorem Field.facesFrom_zero (j : Field) (n : Nat) :
    j.facesFrom 0 n = (List.range n).map (j.location · 0) := by
  rw [facesFrom, List.range_eq_range']

/-- Assignments to the faces are as many as there are directions. -/
theorem length_main_of_faces {K : Type} {main : List (Assignment K)} {j : Field} {n : Nat}
    (h : main.map Assignment.target = (List.range n).map (j.location · 0)) : main.length = n := by
  rw [← List.length_map Assignment.target, h, List.length_map, List.length_range]

section Check

variable {K : Type} {j : Field} {stencil : Stencil} (hj : j.kind = .flux stencil)
  {main : List (Assignment K)}

include hj

/-- No face is missing, so the check is a search for the first assignment that is misplaced. -/
theorem checkFaces_eq {k : Nat} (hk : k + main.length ≤ stencil.staggered.length) :
    checkFaces j k main =
      match firstDifference? k (j.facesFrom k main.length) (main.map Assignment.target) with
      | none => .ok ()
      | some (direction, expected, found) =>
        .error (.faceTargetMismatch direction expected.text found.text) := by
  induction main generalizing k with
  | nil => rfl
  | cons a main ih =>
      rw [List.length_cons] at hk
      rw [checkFaces, Field.face_of_lt hj (by omega), List.length_cons, Field.facesFrom_succ,
        List.map_cons, firstDifference?]
      change ite _ _ _ = _
      by_cases h : a.target = j.location k 0
      · rw [if_pos h, if_pos h.symm, ih (by omega)]
      · rw [if_neg h, if_neg (Ne.symm h)]

theorem checkFaces_eq_ok
    (h : main.map Assignment.target = (List.range stencil.staggered.length).map (j.location · 0)) :
    checkFaces j 0 main = .ok () := by
  have hlength := length_main_of_faces h
  have hnone : firstDifference? 0 (j.facesFrom 0 main.length) (main.map Assignment.target) =
      none := by
    rw [h, hlength, Field.facesFrom_zero]
    exact (firstDifference?_eq_none_iff rfl).2 rfl
  rw [checkFaces_eq hj (by omega), hnone]

theorem checkFaces_eq_error (hlength : main.length = stencil.staggered.length) {k : Nat}
    {expected found : Access}
    (h : FirstDifference ((List.range stencil.staggered.length).map (j.location · 0))
      (main.map Assignment.target) k expected found) :
    checkFaces j 0 main = .error (.faceTargetMismatch k expected.text found.text) := by
  have hsome : firstDifference? 0 (j.facesFrom 0 main.length) (main.map Assignment.target) =
      some (k, expected, found) := by
    rw [hlength, Field.facesFrom_zero]
    exact firstDifference?_eq_some_iff.2 ⟨k, (Nat.zero_add k).symm, h⟩
  rw [checkFaces_eq hj (by omega), hsome]

end Check

/-! ### Fluxes built face by face -/

/-- The collection that writes, for every staggered direction of a stencil, the face of `j` at the
current cell.  The targets are distinct because every direction has a component of its own. -/
def Collection.ofFaces {K : Type} (j : Field) (stencil : Stencil)
    (value : Nat → Direction → Expr K) : Collection K where
  main := stencil.staggered.zipIdx.map fun (direction, k) => ⟨j.location k 0, value k direction⟩
  subexpressions := []
  nodup_targets := by
    have h : (stencil.staggered.zipIdx.map fun p : Direction × Nat =>
          (⟨j.location p.2 0, value p.2 p.1⟩ : Assignment K)).map Assignment.target =
        (stencil.staggered.zipIdx.map Prod.snd).map fun k => j.location k 0 := by
      rw [List.map_map, List.map_map]
      rfl
    rw [h, List.zipIdx_map_snd]
    exact List.Pairwise.map _ (fun k l hkl => by simpa using hkl) List.nodup_range'
  nodup_names := List.nodup_nil

variable {K : Type} {j : Field} {stencil : Stencil} {value other : Nat → Direction → Expr K}

theorem Collection.main_ofFaces :
    (Collection.ofFaces j stencil value).main =
      stencil.staggered.zipIdx.map fun p => ⟨j.location p.2 0, value p.2 p.1⟩ := rfl

theorem Collection.values_ofFaces :
    (Collection.ofFaces j stencil value).values =
      stencil.staggered.zipIdx.map fun p => value p.2 p.1 := by
  change [] ++ (Collection.ofFaces j stencil value).main.map Assignment.value = _
  rw [main_ofFaces, List.nil_append, List.map_map]
  rfl

theorem Collection.getElem?_main_ofFaces {k : Nat} {direction : Direction}
    (h : stencil.staggered[k]? = some direction) :
    (Collection.ofFaces j stencil value).main[k]? = some ⟨j.location k 0, value k direction⟩ := by
  rw [main_ofFaces, List.getElem?_map, List.getElem?_zipIdx, h, Nat.zero_add]
  rfl

theorem Collection.targets_ofFaces :
    (Collection.ofFaces j stencil value).targets =
      (List.range stencil.staggered.length).map fun k => j.location k 0 := by
  have hindices := List.zipIdx_map_snd 0 stencil.staggered
  rw [List.range_eq_range', ← hindices, List.map_map, targets, main_ofFaces, List.map_map]
  rfl

theorem Collection.length_main_ofFaces :
    (Collection.ofFaces j stencil value).main.length = stencil.staggered.length := by
  rw [main_ofFaces, List.length_map, List.length_zipIdx]

/-- Looking up the faces of a flux field does not fail, and none of them occurs twice. -/
theorem Collection.writeFaces_eq (hj : j.kind = .flux stencil) (value : Offset → Expr K) :
    Collection.writeFaces j stencil value =
      .ok (.ofFaces j stencil fun _ direction => value direction.offset) := by
  have hmain : faceAssignments j stencil value =
      .ok (Collection.ofFaces j stencil fun _ direction => value direction.offset).main := by
    refine mapM_eq_ok fun ⟨direction, k⟩ h => ?_
    simp only [Field.face_of_mem hj h]
    rfl
  rw [writeFaces, hmain]
  exact (ofMain_eq_ok_iff _ _).2 ⟨rfl, rfl⟩

variable [Scalar K]

theorem addFluxes_ofFaces :
    addFluxes (.ofFaces j stencil value) (.ofFaces j stencil other) =
      .ok (.ofFaces j stencil fun k direction => value k direction + other k direction) := by
  have hlength : (Collection.ofFaces j stencil value).main.length =
      (Collection.ofFaces j stencil other).main.length := by
    rw [Collection.length_main_ofFaces, Collection.length_main_ofFaces]
  have htargets : (Collection.ofFaces j stencil value).main.map Assignment.target =
      (Collection.ofFaces j stencil other).main.map Assignment.target :=
    Collection.targets_ofFaces.trans Collection.targets_ofFaces.symm
  rw [addFluxes, dif_pos hlength, (firstMisaligned?_eq_none_iff hlength 0).2 htargets]
  refine Collection.withSubexpressions_eq_ok_iff.2 ⟨?_, rfl⟩
  change _ = addValues _ _
  rw [addValues, Collection.main_ofFaces, Collection.main_ofFaces, Collection.main_ofFaces,
    List.zipWith_map, List.zipWith_self]

/-! ### The deterministic flux -/

/-- The value of a finite-volume flux on a face. -/
def FiniteVolume.faceValue (v : FiniteVolume K) (n : Offset) : Expr K :=
  (v.projected n).onFace n / (n.norm : K)

/-- The value of the advective flux on a face. -/
def advectiveValue (v c : Field) (n : Offset) : Expr K :=
  displacedPart (velocityAt v 0) n Scalar.one * c.center -
    displacedPart (velocityAt v n) n Scalar.negOne * c.neighbor n

/-- The value of the flux by diffusion, migration and advection on a face. -/
def transportValue (c v pot : Field) (d z : Expr K) (n : Offset) : Expr K :=
  advectiveValue v c n +
    FiniteVolume.faceValue ⟨c, diffusionFlux c.center pot.center d z⟩ n

theorem FiniteVolume.faceFlux_eq (v : FiniteVolume K) (hj : j.kind = .flux stencil) :
    v.faceFlux j = .ok (.ofFaces j stencil fun _ direction => v.faceValue direction.offset) := by
  rw [faceFlux, (j.stencil_eq_ok_iff stencil).2 hj]
  exact Collection.writeFaces_eq hj v.faceValue

theorem advectiveFlux_eq {v c : Field} (hj : j.kind = .flux stencil)
    (hv : Axis.z.index < v.components) :
    advectiveFlux (K := K) j v c =
      .ok (.ofFaces j stencil fun _ direction => advectiveValue v c direction.offset) := by
  rw [advectiveFlux, (j.stencil_eq_ok_iff stencil).2 hj, Field.access, if_pos hv]
  exact Collection.writeFaces_eq hj (advectiveValue v c)

theorem transportFlux_eq {c v pot : Field} {d z : Expr K} (hj : j.kind = .flux stencil)
    (hv : Axis.z.index < v.components) :
    transportFlux c v pot j d z =
      .ok (.ofFaces j stencil fun _ direction => transportValue c v pot d z direction.offset) := by
  rw [transportFlux, FiniteVolume.faceFlux_eq _ hj, advectiveFlux_eq hj hv]
  exact addFluxes_ofFaces

/-! ### The update -/

/-- The inflow through the opposite face minus the outflow through the face, for each staggered
direction. -/
def FiniteVolume.faceBalance (j : Field) (stencil : Stencil) : List (Expr K) :=
  stencil.staggered.zipIdx.map fun p =>
    .access (j.location p.2 (-p.1.offset)) - .access (j.location p.2 0)

theorem FiniteVolume.balance_eq (hj : j.kind = .flux stencil) :
    balance j stencil = .ok (faceBalance (K := K) j stencil) := by
  refine mapM_eq_ok fun ⟨direction, k⟩ h => ?_
  simp only [Field.face_of_mem hj h]
  rfl

theorem FiniteVolume.update_eq (v : FiniteVolume K) (hj : j.kind = .flux stencil) :
    v.update j = .ok (.single ⟨v.field.centerAccess, v.field.center +
      .add (faceBalance j stencil) * .num (Scalar.div Scalar.one stencil.faceArea)⟩) := by
  rw [update, (j.stencil_eq_ok_iff stencil).2 hj]
  change balance j stencil >>= _ = _
  rw [balance_eq hj]
  exact (Collection.ofMain_eq_ok_iff _ (.single _)).2 ⟨rfl, rfl⟩

/-! ### The noisy flux -/

/-- A flux with the noise of its direction on every face. -/
def noisyFaces (c j : Field) (stencil : Stencil) (d : Expr K) (factor : K)
    (value : Nat → Direction → Expr K) : Collection K where
  main := (Collection.ofFaces j stencil fun k direction =>
    value k direction + noiseAmplitude c direction.offset d factor * rescaledNoise k).main
  subexpressions := (List.range stencil.staggered.length).map noiseDraw
  nodup_targets := Collection.nodup_targets _
  nodup_names := nodup_noiseDraws _

theorem targets_noisyFaces (c : Field) (d : Expr K) (factor : K) :
    (noisyFaces c j stencil d factor value).targets =
      (List.range stencil.staggered.length).map fun k => j.location k 0 := by
  change (Collection.ofFaces j stencil fun k direction =>
    value k direction + noiseAmplitude c direction.offset d factor * rescaledNoise k).targets = _
  exact Collection.targets_ofFaces

theorem noisyValues_ofFaces (c : Field) (d : Expr K) (factor : K) :
    noisyValues c d factor stencil.staggered (Collection.ofFaces j stencil value).main =
      (noisyFaces c j stencil d factor value).main := by
  rw [noisyValues, noisyFaces, Collection.main_ofFaces, Collection.main_ofFaces,
    List.zipWith_map_left, List.zipWith_self]

/-- A flux that writes the faces receives noise as soon as its random numbers can be defined. -/
theorem exists_plainNoise (flux : Collection K) (c : Field) (d : Expr K) (factor : K)
    (hkind : j.kind = .flux stencil)
    (htargets : flux.targets = (List.range stencil.staggered.length).map (j.location · 0)) :
    ∃ plain : Collection K,
      plain.main = noisyValues c d factor stencil.staggered flux.main ∧
        addNoise flux c j d factor = plain.withSubexpressions
          (flux.subexpressions ++ (List.range stencil.staggered.length).map noiseDraw) := by
  rw [addNoise, (j.stencil_eq_ok_iff stencil).2 hkind]
  change ∃ plain : Collection K, _ ∧ dite _ _ _ = _
  rw [dif_pos (length_main_of_faces htargets), checkFaces_eq_ok hkind htargets]
  exact ⟨_, rfl, rfl⟩

theorem addNoise_ofFaces (c : Field) (hj : j.kind = .flux stencil) (d : Expr K) (factor : K) :
    addNoise (.ofFaces j stencil value) c j d factor =
      .ok (noisyFaces c j stencil d factor value) := by
  obtain ⟨plain, hmain, hplain⟩ :=
    exists_plainNoise (.ofFaces j stencil value) c d factor hj Collection.targets_ofFaces
  rw [hplain]
  have hvalues := hmain.trans (noisyValues_ofFaces c d factor)
  exact Collection.withSubexpressions_eq_ok_iff.2 ⟨hvalues.symm, rfl⟩

end Electrokinetics
