/-
**Ghost layers do not change a sweep.**

A ghost cell stands for an interior cell.  A kernel whose values cannot tell a cell from its image
writes at a ghost cell what it writes at the interior cell, into the same place, so visiting ghost
cells as well repeats writes and adds none.  Values with that property read fields and parameters
freely, but use the coordinates of the cell only inside random keys, folded by the extents.

Main definitions:

* `Images` — two cells that stand for one, with coordinates that scalars can hold;
* `Expr.Periodic`, `Collection.Periodic` — values that agree at images;
* `foldedDraw` — the random number of a folded key.

Main results:

* `Expr.Over.periodic` — an expression is periodic if its sources are;
* `periodic_foldedDraw` — draws with folded keys are periodic;
* `Collection.Periodic.exists_sweep_iff`, `Collection.Periodic.get?_eq` — sweeps with and without
  ghost layers.
-/

import Electrokinetics.Parameter
import Electrokinetics.Proofs.Expr.Sources
import Electrokinetics.Proofs.Grid.Region
import Electrokinetics.Proofs.Grid.Translation
import Electrokinetics.Proofs.Scalar.Integer
import Electrokinetics.Proofs.Sweep.Order

set_option relaxedAutoImplicit false
set_option autoImplicit false

namespace Electrokinetics

variable {K : Type} [Scalar K] {domain : Domain}

/-! ### Images -/

/-- Two cells stand for one interior cell, and scalars can hold their coordinates. -/
structure Images (domain : Domain) (x y : Cell) : Prop where
  left_le : ∀ axis, (x.get axis).natAbs ≤ exactBound
  right_le : ∀ axis, (y.get axis).natAbs ≤ exactBound
  foldCell_eq : domain.foldCell x = domain.foldCell y

theorem Images.symm {x y : Cell} (h : Images domain x y) : Images domain y x :=
  ⟨h.right_le, h.left_le, h.foldCell_eq.symm⟩

/-- The parameters for the extents have the extents of a domain as their values. -/
def Bindings.HasExtents (domain : Domain) (b : Bindings K) : Prop :=
  ∀ axis, b.get? (Parameter.extent axis).name = some (Scalar.ofInt (domain.extent.get axis))

/-- Field values that agree at images. -/
def FieldValues.Periodic (domain : Domain) (fields : FieldValues K) : Prop :=
  ∀ field component x, fields field component (domain.foldCell x) = fields field component x

omit [Scalar K] in
theorem Store.periodic_get? (s : Store K domain) : FieldValues.Periodic domain s.get? :=
  s.get?_foldCell

namespace Expr

/-- The value at a cell is the value at its images. -/
def Periodic (domain : Domain) (e : Expr K) : Prop :=
  ∀ (fields : FieldValues K) (b : Bindings K) (x y : Cell), fields.Periodic domain →
    b.HasExtents domain → Images domain x y →
      Keeps (e.eval ⟨fields, b, x⟩) (e.eval ⟨fields, b, y⟩)

theorem periodic_symbol (s : Symbol) : (symbol s : Expr K).Periodic domain :=
  fun _ _ _ _ _ _ _ => Keeps.refl _

theorem periodic_access (a : Access) : (access a : Expr K).Periodic domain := by
  intro fields b x y hfields _ himages
  -- Moving and then folding is the same for both cells, as they fold onto one.
  have hfold := domain.foldCell_add_congr himages.foldCell_eq a.offset
  refine keeps_access ?_
  change fields _ _ (y + a.offset) = fields _ _ (x + a.offset)
  rw [← hfields _ _ (y + a.offset), ← hfold, hfields]

theorem Over.periodic {e : Expr K} (h : e.Over fun t => t.Periodic domain) :
    e.Periodic domain :=
  fun fields b x y hfields hb himages =>
    (h.mono fun _ _ ht => ht fields b x y hfields hb himages).keeps

end Expr

/-! ### Draws with folded keys -/

/-- The random number of a channel at the cell that the current cell stands for. -/
def foldedDraw (channel : ℕ) : Expr K :=
  .random ⟨PerAxis.ofFn fun axis => .modulo (.counter axis) (Parameter.extent axis).expr, channel,
    Parameter.timeStep.expr, Parameter.seed.expr⟩

/-- A draw whose counters are integers is left to the time step and the seed. -/
theorem eval_foldedDraw_of_counters {env : Env K} {i : Cell}
    (hcounters : ∀ axis, ∃ v,
      (Expr.modulo (.counter axis) (Parameter.extent axis).expr).eval env = .ok v ∧
        KeyPart.counter.toInteger v = .ok (i.get axis)) (channel : ℕ) :
    (foldedDraw channel : Expr K).eval env = (do
      let t ← KeyPart.timeStep.toNatural (← Parameter.timeStep.expr.eval env)
      let s ← KeyPart.seed.toNatural (← Parameter.seed.expr.eval env)
      return unitDraw i channel t s) := by
  obtain ⟨x, hx, hi⟩ := hcounters .x
  obtain ⟨y, hy, hj⟩ := hcounters .y
  obtain ⟨z, hz, hk⟩ := hcounters .z
  simp only [foldedDraw, PerAxis.ofFn]
  rw [Expr.eval, hx, hy, hz]
  simp only [bind, Except.bind, hi, hj, hk]
  rfl

section Integers

variable [IntegerScalar K]

theorem extent_lt (domain : Domain) (axis : Axis) : domain.extent.get axis < extentBound := by
  have hle := domain.le_maxLength axis
  simp only [maxLength, extentBound, Nat.pow_eq] at *
  omega

/-- The remainder of a coordinate by an expression with an extent as its value. -/
theorem eval_counter_modulo {env : Env K} {axis : Axis} {m : Expr K} {length : ℕ} (hpos : 0 < length)
    (hlt : length < extentBound) (h : m.eval env = .ok (Scalar.ofInt length)) :
    (Expr.modulo (.counter axis) m).eval env =
      .ok (Scalar.rem (Scalar.ofInt (env.cell.get axis)) (Scalar.ofInt length)) := by
  have hzero : Scalar.isZero (Scalar.ofInt length : K) = false := by
    refine IntegerScalar.isZero_ofInt ?_ (by omega)
    simp only [exactBound, extentBound] at *
    omega
  -- The modulus is evaluated first, and an extent is no zero modulus.
  refine bind_eq_ok.2 ⟨_, h, ?_⟩
  rw [hzero]
  rfl

theorem eval_foldedCounter {env : Env K} {axis : Axis} {length : ℕ} (hpos : 0 < length)
    (hlt : length < extentBound)
    (h : env.bindings.get? (Parameter.extent axis).name = some (Scalar.ofInt length)) :
    (Expr.modulo (.counter axis) (Parameter.extent axis).expr).eval env =
      .ok (Scalar.rem (Scalar.ofInt (env.cell.get axis)) (Scalar.ofInt length)) :=
  eval_counter_modulo hpos hlt (Expr.eval_symbol h)

theorem toInteger_foldedCounter {i : ℤ} {length : ℕ} (hi : i.natAbs ≤ exactBound)
    (hpos : 0 < length) (hlt : length < extentBound) :
    KeyPart.counter.toInteger (Scalar.rem (Scalar.ofInt i) (Scalar.ofInt length) : K) =
      .ok (i % length) := by
  rw [KeyPart.toInteger, if_pos (IntegerScalar.isInteger_rem hi hpos hlt),
    IntegerScalar.toInteger_rem hi hpos hlt]

/-- The counters of a folded key evaluate to the folded cell. -/
theorem eval_foldedDraw {fields : FieldValues K} {b : Bindings K} (hb : b.HasExtents domain)
    {x : Cell} (hx : ∀ axis, (x.get axis).natAbs ≤ exactBound) (channel : ℕ) :
    (foldedDraw channel : Expr K).eval ⟨fields, b, x⟩ = (do
      let t ← KeyPart.timeStep.toNatural (← Parameter.timeStep.expr.eval ⟨fields, b, x⟩)
      let s ← KeyPart.seed.toNatural (← Parameter.seed.expr.eval ⟨fields, b, x⟩)
      return unitDraw (domain.foldCell x) channel t s) := by
  refine eval_foldedDraw_of_counters (fun axis => ?_) channel
  have hpos := domain.pos axis
  have hlt := extent_lt domain axis
  refine ⟨_, eval_foldedCounter hpos hlt (hb axis), ?_⟩
  rw [toInteger_foldedCounter (hx axis) hpos hlt, Domain.foldCell, PerAxis.get_mapAxis]
  rfl

theorem periodic_foldedDraw (channel : ℕ) : (foldedDraw channel : Expr K).Periodic domain := by
  intro fields b x y _ hb himages
  rw [eval_foldedDraw hb himages.left_le, eval_foldedDraw hb himages.right_le,
    himages.foldCell_eq]
  exact Keeps.refl _

end Integers

/-! ### Kernels -/

/-- A kernel whose values agree at images, and which writes at the current cell. -/
structure Collection.Periodic (domain : Domain) (c : Collection K) : Prop where
  centered : ∀ a ∈ c.main, a.target.offset = 0
  main : ∀ a ∈ c.main, a.value.Periodic domain
  subexpressions : ∀ s ∈ c.subexpressions, s.value.Periodic domain
  names : ∀ s ∈ c.subexpressions, ∀ axis, s.symbol.name ≠ (Parameter.extent axis).name

namespace Collection

variable {fields : FieldValues K} {b : Bindings K} {x y : Cell}

namespace Periodic

variable {c : Collection K}

/-- A kernel writes the same values at a cell and at its images. -/
theorem keeps_evalAt (hc : c.Periodic domain) (hfields : fields.Periodic domain)
    (hb : b.HasExtents domain) (himages : Images domain x y) :
    Keeps (c.evalAt fields b x) (c.evalAt fields b y) := by
  refine related_evalAt composable_keeps fun e he b' hagree => ?_
  -- A name of an extent would hide the extent from the folded keys, but none is defined.
  have hextents : b'.HasExtents domain := by
    intro axis
    have hname : (Parameter.extent axis).name ∉ c.names := by
      intro hmem
      obtain ⟨s, hs, heq⟩ := List.mem_map.1 hmem
      exact hc.names s hs axis heq
    rw [hagree _ hname]
    exact hb axis
  have hvalue : e.Periodic domain := by
    rcases List.mem_append.1 he with he | he
    · obtain ⟨s, hs, rfl⟩ := List.mem_map.1 he
      exact hc.subexpressions s hs
    · obtain ⟨a, ha, rfl⟩ := List.mem_map.1 he
      exact hc.main a ha
  exact hvalue fields b' x y hfields hextents himages

/-- A kernel that writes only at the current cell writes no column twice. -/
theorem nodup_columns (hc : c.Periodic domain) : c.columns.Nodup := by
  have hoffset : ∀ t ∈ c.targets, t.offset = 0 := by
    intro t ht
    obtain ⟨a, ha, rfl⟩ := List.mem_map.1 ht
    exact hc.centered a ha
  refine c.nodup_targets.map_on fun t ht t' ht' hcolumn => ?_
  -- With the offsets zero, field and component make up the whole target.
  obtain ⟨f, k, n⟩ := t
  obtain ⟨f', k', n'⟩ := t'
  obtain rfl : n = 0 := hoffset _ ht
  obtain rfl : n' = 0 := hoffset _ ht'
  obtain ⟨rfl, rfl⟩ := Prod.mk.inj hcolumn
  rfl

/-! ### Sweeps -/

variable {r : Region} {s : Store K r.domain}

theorem images_foldCell {x : Cell} (hx : r.contains x) :
    Images r.domain x (r.domain.foldCell x) where
  left_le axis := (Region.natAbs_le hx axis).trans (by decide)
  right_le axis :=
    (Region.natAbs_le (Region.contains_of_isInterior (r.domain.foldCell_mem x)) axis).trans
      (by decide)
  foldCell_eq := (r.domain.foldCell_foldCell x).symm

/-- A sweep succeeds on a region if it does on the interior. -/
theorem exists_sweep_iff (hc : c.Periodic r.domain) (hb : b.HasExtents r.domain) :
    (∃ s', c.sweep s b r.cells = .ok s') ↔ ∃ s', c.sweepInterior s b = .ok s' := by
  rw [sweepInterior, Collection.exists_sweep_iff, Collection.exists_sweep_iff]
  constructor
  · intro h x hx
    exact h x (Region.mem_cells_of_mem_interior hx)
  · intro h x hx
    have himages := images_foldCell (Region.mem_cells.1 hx)
    obtain ⟨ws, hws⟩ := h _ (Region.foldCell_mem_interior r.domain x)
    exact ⟨ws, hc.keeps_evalAt s.periodic_get? hb himages.symm ws hws⟩

/-- Every write of a sweep over a region agrees with one of the sweep over the interior. -/
theorem exists_interior_write (hc : c.Periodic r.domain) (hb : b.HasExtents r.domain)
    {ws ws' : List (Write K)} (hws : c.writes s b r.cells = .ok ws)
    (hws' : c.writes s b (Region.interior r.domain).cells = .ok ws') {w : Write K} (hw : w ∈ ws) :
    ∃ w' ∈ ws', w.Agrees r.domain w' := by
  obtain ⟨x, hx, here, hhere, p, hp, rfl⟩ := (mem_writes hws).1 hw
  have himages := images_foldCell (Region.mem_cells.1 hx)
  have hfolded := hc.keeps_evalAt s.periodic_get? hb himages here hhere
  have hmem := Region.foldCell_mem_interior r.domain x
  exact ⟨Write.ofAccess (r.domain.foldCell x) p,
    (mem_writes hws').2 ⟨_, hmem, here, hfolded, p, hp, rfl⟩,
    rfl, rfl, rfl, (r.domain.index_foldCell_add x _).symm⟩

theorem exists_region_write {ws ws' : List (Write K)} (hws : c.writes s b r.cells = .ok ws)
    (hws' : c.writes s b (Region.interior r.domain).cells = .ok ws') {w : Write K} (hw : w ∈ ws') :
    w ∈ ws := by
  obtain ⟨x, hx, rest⟩ := (mem_writes hws').1 hw
  exact (mem_writes hws).2 ⟨x, Region.mem_cells_of_mem_interior hx, rest⟩

/-- A sweep over a region leaves the values that a sweep over the interior leaves. -/
theorem get?_eq (hc : c.Periodic r.domain) (hb : b.HasExtents r.domain) {s₁ s₂ : Store K r.domain}
    (h₁ : c.sweep s b r.cells = .ok s₁) (h₂ : c.sweepInterior s b = .ok s₂) (field : String)
    (component : ℕ) (x : Cell) : s₁.get? field component x = s₂.get? field component x := by
  obtain ⟨ws, hws, rfl⟩ := sweep_eq_ok_iff.1 h₁
  obtain ⟨ws', hws', rfl⟩ := sweep_eq_ok_iff.1 h₂
  refine Store.get?_putAll_congr ?_ ?_ ?_
  · intro w hw
    exact hc.exists_interior_write hb hws hws' hw
  · intro w hw
    exact ⟨w, exists_region_write hws hws' hw, rfl, rfl, rfl, rfl⟩
  · intro w hw w' hw' h h'
    rw [eq_of_hits hc.nodup_columns (Region.nodup_map_foldCell_interior _) hws' hw hw' h h']

end Periodic

end Collection

end Electrokinetics
