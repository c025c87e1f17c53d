/-
**A step: the fluxes of all faces, and then the update.**

A transported field takes a step by two sweeps.  The first stores the flux through every face; the
second adds to every cell what flows in through the faces behind it and takes away what flows out
through its own, over the effective face area.  The second sweep reads nothing that the first one
writes but the fluxes, so the two together give every cell one closed value.

Main definitions:

* `Stencil.offsetAt` — the offset of a staggered direction, by position;
* `FiniteVolume.stepped` — the value of a cell after a step;
* `FiniteVolume.faceWeight` — the weight of a flux in it, over the real numbers.

Main results:

* `Collection.exists_sweep_ofFaces` — the sweep that stores the fluxes, and what it leaves;
* `FiniteVolume.exists_step` — both sweeps.
-/

import Electrokinetics.Proofs.Grid.FaceArea
import Electrokinetics.Proofs.Sweep.Conservation
import Electrokinetics.Proofs.Transport.Values

set_option relaxedAutoImplicit false
set_option autoImplicit false

namespace Electrokinetics

/-! ### Directions by position -/

namespace Stencil

/-- The offset of the staggered direction at a position. -/
def offsetAt (stencil : Stencil) (k : ℕ) : Offset :=
  (stencil.staggered[k]?.map Direction.offset).getD 0

theorem offsetAt_of_mem {stencil : Stencil} {p : Direction × ℕ}
    (h : p ∈ stencil.staggered.zipIdx) : stencil.offsetAt p.2 = p.1.offset := by
  rw [offsetAt, List.mem_zipIdx_iff_getElem?.1 h]
  rfl

theorem exists_mem_zipIdx {stencil : Stencil} {k : ℕ} (h : k < stencil.staggered.length) :
    ∃ direction, (direction, k) ∈ stencil.staggered.zipIdx :=
  ⟨stencil.staggered[k], List.mem_zipIdx_iff_getElem?.2 (List.getElem?_eq_getElem h)⟩

end Stencil

/-! ### Storing the fluxes -/

section Columns

variable {K : Type} {j : Field} {stencil : Stencil} {value : ℕ → Direction → Expr K}

theorem Collection.columns_ofFaces : (Collection.ofFaces j stencil value).columns =
    (List.range stencil.staggered.length).map fun k => (j.name, k) := by
  rw [columns, targets_ofFaces, List.map_map]
  rfl

/-- Every staggered direction has a column of its own. -/
theorem Collection.nodup_columns_ofFaces : (Collection.ofFaces j stencil value).columns.Nodup := by
  rw [columns_ofFaces]
  exact List.nodup_range.map fun k l h => (Prod.mk.inj h).2

theorem Collection.notMem_columns_ofFaces {field : String} (h : field ≠ j.name) {component : ℕ} :
    (field, component) ∉ (Collection.ofFaces j stencil value).columns := by
  rw [columns_ofFaces]
  intro hcolumn
  obtain ⟨k, -, hplace⟩ := List.mem_map.1 hcolumn
  exact h (Prod.mk.inj hplace).1.symm

end Columns

variable {K : Type} [Scalar K] {domain : Domain} {j : Field} {stencil : Stencil}
  {value : Offset → Expr K} {face : Offset → Cell → K} {s : Store K domain} {b : Bindings K}

/-- With a value for every face there is a sweep.  It stores these values, also as seen from outside
of the domain, and leaves all other fields alone. -/
theorem Collection.exists_sweep_ofFaces
    (hvalue : ∀ direction ∈ stencil.staggered, ∀ x,
      (value direction.offset).eval ⟨s.get?, b, x⟩ = .ok (face direction.offset x))
    (hperiodic : ∀ n x, face n (domain.foldCell x) = face n x) :
    ∃ s', (Collection.ofFaces j stencil fun _ direction => value direction.offset).sweepInterior
        s b = .ok s' ∧
      (∀ k < stencil.staggered.length, ∀ x,
        s'.get? j.name k x = some (face (stencil.offsetAt k) x)) ∧
      ∀ field component x, field ≠ j.name → s'.get? field component x = s.get? field component x := by
  have heval (x : Cell) :
      (Collection.ofFaces j stencil fun _ direction => value direction.offset).evalAt s.get? b x =
        .ok (stencil.staggered.zipIdx.map fun p => (j.location p.2 0, face p.1.offset x)) :=
    Collection.evalAt_ofFaces (fun _ direction => face direction.offset x) fun p hp =>
      hvalue p.1 (List.fst_mem_of_mem_zipIdx hp) x
  obtain ⟨s', hs', hwritten, hkept⟩ := exists_sweepInterior nodup_columns_ofFaces heval
    (fun _ _ => rfl) fun _ => hperiodic _
  refine ⟨s', hs', fun k hk x => ?_, fun field component x hne =>
    hkept field component x (notMem_columns_ofFaces hne)⟩
  obtain ⟨direction, hmem⟩ := Stencil.exists_mem_zipIdx hk
  rw [Stencil.offsetAt_of_mem hmem]
  exact hwritten _ hmem x

/-! ### Both sweeps -/

namespace FiniteVolume

variable [OrderedField K] [ExactScalar K] {v : FiniteVolume K} {C : Cell → K}

/-- The old value of a cell and the balance of the fluxes through its faces. -/
def stepped (stencil : Stencil) (C : Cell → K) (face : Offset → Cell → K) (x : Cell) : K :=
  C x + (stencil.staggered.map fun direction =>
    face direction.offset (x + -direction.offset) - face direction.offset x).sum *
      Scalar.div Scalar.one stencil.faceArea

omit [ExactScalar K] in
theorem updated_offsetAt (stencil : Stencil) (C : Cell → K) (face : Offset → Cell → K) :
    updated stencil C (fun k => face (stencil.offsetAt k)) = stepped stencil C face := by
  funext x
  have hfaces : (stencil.staggered.zipIdx.map fun p =>
      face (stencil.offsetAt p.2) (x + -p.1.offset) - face (stencil.offsetAt p.2) x) =
      (stencil.staggered.zipIdx.map Prod.fst).map fun direction =>
        face direction.offset (x + -direction.offset) - face direction.offset x := by
    rw [List.map_map]
    refine List.map_congr_left fun p hp => ?_
    rw [Stencil.offsetAt_of_mem hp]
    rfl
  rw [updated, hfaces, List.zipIdx_map_fst, stepped]

omit [ExactScalar K] in
/-- Where values and fluxes repeat with the domain, so does what a step leaves. -/
theorem stepped_foldCell (hC : ∀ x, C (domain.foldCell x) = C x)
    (hperiodic : ∀ n x, face n (domain.foldCell x) = face n x) (x : Cell) :
    stepped stencil C face (domain.foldCell x) = stepped stencil C face x := by
  have hbehind (n m : Offset) : face n (domain.foldCell x + m) = face n (x + m) := by
    rw [← hperiodic, domain.foldCell_foldCell_add, hperiodic]
  simp only [stepped, hC, hperiodic, hbehind]

/-- **A step**: with a value for every face both sweeps succeed, and afterwards every cell, also as
seen from outside of the domain, holds its old value and the balance of its faces. -/
theorem exists_step (hj : j.kind = .flux stencil) (hname : v.field.name ≠ j.name)
    (hC : ∀ x, s.get? v.field.name 0 x = some (C x))
    (hvalue : ∀ direction ∈ stencil.staggered, ∀ x,
      (value direction.offset).eval ⟨s.get?, b, x⟩ = .ok (face direction.offset x))
    (hperiodic : ∀ n x, face n (domain.foldCell x) = face n x) :
    ∃ update s₁ s₂, v.update j = .ok update ∧
      (Collection.ofFaces j stencil fun _ direction => value direction.offset).sweepInterior s b =
        .ok s₁ ∧
      update.sweepInterior s₁ b = .ok s₂ ∧
      ∀ x, s₂.get? v.field.name 0 x = some (stepped stencil C face x) := by
  obtain ⟨s₁, hs₁, hflux, hother⟩ := Collection.exists_sweep_ofFaces hvalue hperiodic
  have hC₁ (x : Cell) : s₁.get? v.field.name 0 x = some (C x) := by
    rw [hother _ _ _ hname, hC]
  have hC₀ := Store.apply_foldCell hC
  have hkernel := update_eq v hj
  obtain ⟨s₂, hs₂⟩ := Collection.exists_sweep_iff.2
    fun x (_ : x ∈ (Region.interior domain).cells) =>
      ⟨_, evalAt_update hC₁ hflux hj hkernel b x⟩
  refine ⟨_, s₁, s₂, hkernel, hs₁, hs₂, fun x => ?_⟩
  rw [← s₂.get?_foldCell, get?_update hC₁ hflux hj hkernel hs₂ (domain.foldCell_mem x),
    updated_offsetAt, stepped_foldCell hC₀ hperiodic]

end FiniteVolume

/-! ### The weight of a flux -/

namespace FiniteVolume

variable {stencil : Stencil}

/-- The weight with which the update adds a flux to a cell. -/
noncomputable def faceWeight (stencil : Stencil) : ℝ := 1 / stencil.faceArea

theorem div_faceArea (stencil : Stencil) :
    Scalar.div Scalar.one stencil.faceArea = faceWeight stencil := by
  rw [ExactScalar.div_eq, Scalar.one_eq, faceWeight]

theorem faceWeight_mul_faceArea (stencil : Stencil) :
    faceWeight stencil * stencil.faceArea = 1 :=
  one_div_mul_cancel (Stencil.faceArea_pos stencil).ne'

theorem faceWeight_pos (stencil : Stencil) : 0 < faceWeight stencil :=
  one_div_pos.2 (Stencil.faceArea_pos stencil)

theorem faceWeight_lt_one (h : stencil ≠ .d3q7) : faceWeight stencil < 1 :=
  (div_lt_one (Stencil.faceArea_pos stencil)).2 (Stencil.one_lt_faceArea h)

/-- The weight is one for the stencil of faces only. -/
theorem faceWeight_eq_one_iff (stencil : Stencil) : faceWeight stencil = 1 ↔ stencil = .d3q7 := by
  constructor
  · intro h
    by_contra hne
    exact (faceWeight_lt_one hne).ne h
  · rintro rfl
    rw [faceWeight, Stencil.faceArea_d3q7, one_div_one]

theorem faceWeight_le_one (stencil : Stencil) : faceWeight stencil ≤ 1 := by
  by_cases h : stencil = .d3q7
  · exact ((faceWeight_eq_one_iff stencil).2 h).le
  · exact (faceWeight_lt_one h).le

end FiniteVolume

end Electrokinetics
