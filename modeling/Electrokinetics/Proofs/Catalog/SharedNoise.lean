/-
**Which faces share their noise.**

The kernel with noise draws one random number for each staggered direction of a cell.  It reads the
keystream at a place that belongs to the direction, the time step, the seed and the cell of the domain
that the current cell stands for, and to nothing else: two faces, in one run or in two, have the same
noise if they are the same face up to the period of the domain, and otherwise their random numbers have
no word of the keystream in common.

Main definitions:

* `KeyedBy` — the bindings and the cell of a run determine its random keys.

Main results:

* `KeyedBy.address_foldedKey` — the address of a draw;
* `Config.exists_drawsAt` — the draws of the kernel with noise;
* `Config.noise_shared_iff` — faces that share their noise, and faces that do not.
-/

import Electrokinetics.Proofs.Catalog.Footprint
import Electrokinetics.Proofs.Noise.Keystream

set_option relaxedAutoImplicit false
set_option autoImplicit false

namespace Electrokinetics

section Keys

variable {K : Type} [Scalar K] {domain : Domain} {b : Bindings K} {x : Cell} {t s : ℕ}

/-- A run at a cell of a domain, with a time step and a seed that scalars can hold. -/
structure KeyedBy (domain : Domain) (b : Bindings K) (x : Cell) (t s : ℕ) : Prop where
  extents : b.HasExtents domain
  cell_le : ∀ axis, (x.get axis).natAbs ≤ exactBound
  timeStep : b.get? Parameter.timeStep.name = some (Scalar.ofInt t)
  timeStep_le : t ≤ exactBound
  seed : b.get? Parameter.seed.name = some (Scalar.ofInt s)
  seed_le : s ≤ exactBound

/-- A draw reads the keystream where the folded cell, the direction, the time step and the seed say. -/
theorem KeyedBy.address_foldedKey [IntegerScalar K] (h : KeyedBy domain b x t s)
    (fields : FieldValues K) (k : ℕ) :
    (foldedKey k).address ⟨fields, b, x⟩ = .ok (.ofKey (domain.foldCell x) k t s) := by
  refine address_foldedKey_of_key (fun axis => ?_)
    ⟨_, h.timeStep, KeyPart.toNatural_ofInt _ h.timeStep_le⟩
    ⟨_, h.seed, KeyPart.toNatural_ofInt _ h.seed_le⟩ k
  have hpos := domain.pos axis
  have hlt := extent_lt domain axis
  refine ⟨_, eval_foldedCounter hpos hlt (h.extents axis), ?_⟩
  rw [toInteger_foldedCounter (h.cell_le axis) hpos hlt, Domain.foldCell, PerAxis.get_mapAxis]
  rfl

end Keys

theorem Domain.natAbs_foldCell_le (domain : Domain) (x : Cell) (axis : Axis) :
    ((domain.foldCell x).get axis).natAbs ≤ exactBound := by
  have hpos := domain.pos axis
  have hlt := extent_lt domain axis
  have hnonneg := Int.emod_nonneg (x.get axis) (Int.natCast_ne_zero.2 hpos.ne')
  have hbelow := Int.emod_lt_of_pos (x.get axis) (Int.natCast_pos.2 hpos)
  rw [Domain.foldCell, PerAxis.get_mapAxis, Domain.fold]
  simp only [exactBound, extentBound] at *
  omega

namespace Config

variable {c : Config}

/-- The kernel with noise draws a number for every direction. -/
theorem exists_drawsAt {K : Type} [Scalar K] [IntegerScalar K] (h : c.validate = .ok ()) :
    ∃ (set : KernelSet K) (kernel : Kernel K), c.kernelSet = .ok set ∧
      set.get? "AdvectionDiffusionFluctuation" = some kernel ∧
      ∀ (domain : Domain) (fields : FieldValues K) (b : Bindings K) (x : Cell) (t s k : ℕ),
        KeyedBy domain b x t s → k < c.stencil.staggered.length →
          let a := KeystreamAddress.ofKey (domain.foldCell x) k t s
          kernel.collection.DrawsAt fields b x k a a.draw := by
  obtain ⟨set, hset, -⟩ := exists_kernelSet (K := K) h
  refine ⟨set, _, hset, get?_kernelSet hset noisyTransportEntry_mem_catalog, ?_⟩
  intro domain fields b x t s k hrun hk
  exact Collection.drawsAt_foldedNoise c.subexpressions_noisyTransport
    (fun i => .ofKey (domain.foldCell x) i t s) (hrun.address_foldedKey fields) hk

/-- **Shared noise**: two draws of the kernel with noise, in runs of their own, read the same two words
of the keystream exactly if they are drawn for one direction, one time step and one seed, and at cells
that are periodic images.  Otherwise they have no word in common.  The two words of a draw lie in one
block, and the number that is drawn is made of them: it is a multiple of `2 ^ -53` in the unit
interval. -/
theorem noise_shared_iff (h : c.validate = .ok ()) (domain : Domain)
    {fields fields' : FieldValues Float} {b b' : Bindings Float} {x x' : Cell} {t t' s s' k k' : ℕ}
    (hrun : KeyedBy domain b x t s) (hrun' : KeyedBy domain b' x' t' s')
    (hk : k < c.stencil.staggered.length) (hk' : k' < c.stencil.staggered.length) :
    ∃ (set : KernelSet Float) (kernel : Kernel Float) (a a' : KeystreamAddress) (v v' : Float)
      (m m' : ℕ), c.kernelSet = .ok set ∧
      set.get? "AdvectionDiffusionFluctuation" = some kernel ∧
      kernel.collection.DrawsAt fields b x k a v ∧ kernel.collection.DrawsAt fields' b' x' k' a' v' ∧
      (a = a' ↔ k = k' ∧ t = t' ∧ s = s' ∧
        ∀ axis, x.get axis ≡ x'.get axis [ZMOD domain.extent.get axis]) ∧
      (a ≠ a' → a.words.Disjoint a'.words) ∧
      (∀ w ∈ a.words, w.key = a.key ∧ w.stream = a.stream ∧ w.position / 16 = a.position / 16) ∧
      (∀ w ∈ a'.words,
        w.key = a'.key ∧ w.stream = a'.stream ∧ w.position / 16 = a'.position / 16) ∧
      DrawnFrom v a m ∧ DrawnFrom v' a' m' := by
  obtain ⟨set, kernel, hset, hkernel, hdraws⟩ := exists_drawsAt (K := Float) h
  have hposition (i : Cell) (k t s : ℕ) : 2 ∣ (KeystreamAddress.ofKey i k t s).position :=
    dvd_mul_right 2 k
  refine ⟨set, kernel, _, _, _, _, _, _, hset, hkernel, hdraws domain fields b x t s k hrun hk,
    hdraws domain fields' b' x' t' s' k' hrun' hk', ?_,
    KeystreamAddress.disjoint_words (hposition _ _ _ _) (hposition _ _ _ _),
    KeystreamAddress.block_of_mem_words (hposition _ _ _ _),
    KeystreamAddress.block_of_mem_words (hposition _ _ _ _), drawnFrom_draw _, drawnFrom_draw _⟩
  rw [KeystreamAddress.ofKey_eq_iff (domain.natAbs_foldCell_le x) (domain.natAbs_foldCell_le x')
    hrun.timeStep_le hrun'.timeStep_le hrun.seed_le hrun'.seed_le, domain.foldCell_eq_foldCell_iff]
  constructor
  · rintro ⟨hcells, hk, ht, hs⟩
    exact ⟨hk, ht, hs, hcells⟩
  · rintro ⟨hk, ht, hs, hcells⟩
    exact ⟨hcells, hk, ht, hs⟩

/-- The bindings of a run on a narrow domain. -/
def narrowRun : Bindings Float :=
  .ofList [("L_0", Scalar.ofInt 1), ("L_1", Scalar.ofInt 2), ("L_2", Scalar.ofInt 3),
    ("time_step", Scalar.ofInt 5), ("seed", Scalar.ofInt 7)]

theorem keyedBy_narrowRun {x : Cell} (hx : ∀ axis, (x.get axis).natAbs ≤ exactBound) :
    KeyedBy .narrow narrowRun x 5 7 where
  extents axis := by cases axis <;> rfl
  cell_le := hx
  timeStep := rfl
  timeStep_le := by decide
  seed := rfl
  seed_le := by decide

/-- A ghost cell and an image of it further off read the same two words and draw the same number. -/
theorem noise_shared_iff_ghost :
    ∃ (set : KernelSet Float) (kernel : Kernel Float) (a : KeystreamAddress) (v : Float) (m : ℕ),
      reference.kernelSet = .ok set ∧
      set.get? "AdvectionDiffusionFluctuation" = some kernel ∧
      kernel.collection.DrawsAt (fun _ _ _ => none) narrowRun ⟨-1, 0, 3⟩ 3 a v ∧
      kernel.collection.DrawsAt (fun _ _ _ => some 1) narrowRun ⟨4, 2, 0⟩ 3 a v ∧
      DrawnFrom v a m := by
  have hghost : KeyedBy .narrow narrowRun ⟨-1, 0, 3⟩ 5 7 :=
    keyedBy_narrowRun fun axis => by cases axis <;> decide
  have himage : KeyedBy .narrow narrowRun ⟨4, 2, 0⟩ 5 7 :=
    keyedBy_narrowRun fun axis => by cases axis <;> decide
  have hk : 3 < reference.stencil.staggered.length := by decide
  have hcells (axis : Axis) : (⟨-1, 0, 3⟩ : Cell).get axis ≡
      (⟨4, 2, 0⟩ : Cell).get axis [ZMOD Domain.narrow.extent.get axis] := by
    cases axis <;> decide
  obtain ⟨set, kernel, a, a', v, v', m, m', hset, hkernel, hdraw, hdraw', hiff, -, -, -, hv, hv'⟩ :=
    @noise_shared_iff reference rfl .narrow (fun _ _ _ => none) (fun _ _ _ => some 1) _ _ _ _ _ _ _ _
      _ _ hghost himage hk hk
  obtain rfl := hiff.2 ⟨rfl, rfl, rfl, hcells⟩
  obtain rfl : v = v' := hv.draw.trans hv'.draw.symm
  exact ⟨set, kernel, a, v, m, hset, hkernel, hdraw, hdraw', hv⟩

end Config

end Electrokinetics
