/-
What a catalog of kernels is generated for.

Main definitions:

* `Config` — stencil, storage of the fields, species counts and hints for the emitter;
* `Config.validate` — the conditions on a configuration, with `ConfigError`;
* `Config.reference`, `Config.stress` — the configurations that are timed.
-/

import Electrokinetics.Field

set_option relaxedAutoImplicit false
set_option autoImplicit false

namespace Electrokinetics

/-- The vector instructions that emitted sweeps use. -/
inductive InstructionSet where
  | sse
  | avx
  | avx512
  | neon
  deriving DecidableEq, Repr, Inhabited

/-- The name of an instruction set. -/
def InstructionSet.text : InstructionSet → String
  | sse => "sse"
  | avx => "avx"
  | avx512 => "avx512"
  | neon => "neon"

/-- Hints for the emitter.  They never change a kernel. -/
structure VectorHints where
  /-- The instructions that may be used. -/
  instructionSet : InstructionSet := .avx
  /-- The innermost loop walks adjacent memory. -/
  innerStrideOne : Bool := true
  /-- Fields start at multiples of the vector length. -/
  aligned : Bool := true
  /-- Rows are padded to multiples of the vector length. -/
  linePadding : Bool := true
  deriving DecidableEq, Repr, Inhabited

/-- What a catalog of kernels is generated for. -/
structure Config where
  /-- The stencil of the flux field. -/
  stencil : Stencil := .d3q19
  /-- The type of the elements of all fields. -/
  element : ElementType := .float32
  /-- The layout of all fields. -/
  layout : Layout := .fzyx
  /-- The number of ghost layers of all fields. -/
  ghostLayers : Nat := 1
  /-- The least number of species that gets a reaction kernel. -/
  firstSpecies : Nat := 1
  /-- The greatest number of species that gets a reaction kernel. -/
  lastSpecies : Nat := 5
  /-- Hints for the emitter. -/
  hints : VectorHints := {}
  deriving DecidableEq, Repr, Inhabited

/-- Why a configuration is refused. -/
inductive ConfigError where
  /-- Fields need a ghost layer, because kernels read neighbours. -/
  | ghostLayers (configured : Nat)
  /-- The species counts are empty or start at zero. -/
  | invalidSpeciesRange (first last : Nat)
  /-- Components side by side leave no unit stride to the innermost loop. -/
  | innerStrideWithZyxf
  deriving DecidableEq, Repr

/-- The text of an error. -/
def ConfigError.message : ConfigError → String
  | .ghostLayers configured => "ghost_layers must be at least 1, got " ++ toString configured
  | .invalidSpeciesRange first last =>
    "species_counts " ++ toString first ++ "..=" ++ toString last ++
      " must be non-empty and start at 1 or more"
  | .innerStrideWithZyxf =>
    "assume_inner_stride_one requires the " ++ Layout.fzyx.text ++ " layout, got " ++
      Layout.zyxf.text

namespace Config

/-- Checks a configuration: the ghost layers first, then the species counts, then the hints. -/
def validate (c : Config) : Except ConfigError Unit :=
  if c.ghostLayers = 0 then .error (.ghostLayers c.ghostLayers)
  else if c.firstSpecies = 0 ∨ c.lastSpecies < c.firstSpecies then
    .error (.invalidSpeciesRange c.firstSpecies c.lastSpecies)
  else if c.layout = .zyxf ∧ c.hints.innerStrideOne then .error .innerStrideWithZyxf
  else .ok ()

/-- The species counts that get a reaction kernel, in increasing order. -/
def speciesCounts (c : Config) : List Nat :=
  List.range' c.firstSpecies (c.lastSpecies + 1 - c.firstSpecies)

theorem validate_eq_ok_iff (c : Config) :
    c.validate = .ok () ↔
      0 < c.ghostLayers ∧ (0 < c.firstSpecies ∧ c.firstSpecies ≤ c.lastSpecies) ∧
        ¬(c.layout = .zyxf ∧ c.hints.innerStrideOne) := by
  unfold validate
  split
  · simp [*]
  · split
    · simp only [reduceCtorEq, false_iff]
      omega
    · have hghost : 0 < c.ghostLayers := by omega
      have hspecies : 0 < c.firstSpecies ∧ c.firstSpecies ≤ c.lastSpecies := by omega
      split
      · simp [*]
      · simp [*]

/-- The default configuration. -/
def reference : Config := {}

/-- The largest stencil in double precision, with more reaction kernels. -/
def stress : Config :=
  { stencil := .d3q27, element := .float64, firstSpecies := 1, lastSpecies := 8 }

end Config

end Electrokinetics
