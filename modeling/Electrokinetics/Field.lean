/-
Field declarations.

A field is a named array over the grid with some number of components per cell.  A kernel never
touches its memory; it only names components at offsets from the current cell.

Main definitions:

* `Field` — a declaration, with `Field.scalar`, `Field.vector` and `Field.flux`;
* `Field.center`, `Field.neighbor`, `Field.component` — reads of a field;
* `Field.stencil`, `Field.face` — the stencil of a flux field and its faces.
-/

import Electrokinetics.BuildError
import Electrokinetics.Expr.Text
import Electrokinetics.Grid.Stencil

set_option relaxedAutoImplicit false
set_option autoImplicit false

namespace Electrokinetics

/-- The type of the elements of a field. -/
inductive ElementType where
  | float32
  | float64
  deriving DecidableEq, Repr, Inhabited

/-- The name of an element type. -/
def ElementType.text : ElementType → String
  | float32 => "float32"
  | float64 => "float64"

/-- The order in which the components of a field lie in memory. -/
inductive Layout where
  /-- One array per component, x fastest. -/
  | fzyx
  /-- The components of a cell side by side. -/
  | zyxf
  deriving DecidableEq, Repr, Inhabited

/-- The name of a layout. -/
def Layout.text : Layout → String
  | fzyx => "fzyx"
  | zyxf => "zyxf"

/-- What a field holds for each cell. -/
inductive FieldKind where
  /-- One value. -/
  | scalar
  /-- Some number of values. -/
  | vector (dims : Nat)
  /-- One value for the face towards each staggered neighbour. -/
  | flux (stencil : Stencil)
  deriving DecidableEq, Repr, Inhabited

/-- The number of components per cell. -/
def FieldKind.components : FieldKind → Nat
  | scalar => 1
  | vector dims => dims
  | flux stencil => stencil.staggered.length

/-- A declared field. -/
structure Field where
  name : String
  kind : FieldKind
  element : ElementType := .float32
  layout : Layout := .fzyx
  ghostLayers : Nat := 1
  deriving DecidableEq, Repr, Inhabited

namespace Field

/-- A field with one value per cell. -/
def scalar (name : String) : Field := ⟨name, .scalar, .float32, .fzyx, 1⟩

/-- A field with some number of values per cell. -/
def vector (name : String) (dims : Nat) : Field := ⟨name, .vector dims, .float32, .fzyx, 1⟩

/-- A field with one value for each staggered face of a cell. -/
def flux (name : String) (stencil : Stencil) : Field := ⟨name, .flux stencil, .float32, .fzyx, 1⟩

/-- The number of components per cell. -/
def components (f : Field) : Nat := f.kind.components

/-- A component at an offset from the current cell, whether or not the field has it. -/
def location (f : Field) (component : Nat) (n : Offset) : Access := ⟨f.name, component, n⟩

/-- The first component at the current cell, as a target. -/
def centerAccess (f : Field) : Access := f.location 0 0

/-- A component at an offset from the current cell. -/
def access (f : Field) (component : Nat) (n : Offset) : Except BuildError Access :=
  if component < f.components then .ok (f.location component n)
  else .error (.componentOutOfRange f.name component f.components)

/-- The stencil of a flux field. -/
def stencil (f : Field) : Except BuildError Stencil :=
  match f.kind with
  | .flux stencil => .ok stencil
  | _ => .error (.notStaggered f.name)

/-- The face of a flux field in a staggered direction, at an offset from the current cell. -/
def face (f : Field) (direction : Nat) (n : Offset) : Except BuildError Access := do
  let _ ← f.stencil
  f.access direction n

/-- The text of a declaration. -/
def text (f : Field) : String :=
  let shape :=
    match f.kind with
    | .scalar => ""
    | .vector dims => "(" ++ toString dims ++ ") " ++ f.layout.text
    | .flux stencil =>
      "(" ++ toString f.components ++ ") staggered " ++ stencil.text ++ " " ++ f.layout.text
  f.name ++ " : " ++ f.element.text ++ "[3D]" ++ shape

section Reads

variable {K : Type}

/-- The first component at an offset from the current cell. -/
def neighbor (f : Field) (n : Offset) : Expr K := .access (f.location 0 n)

/-- The first component at the current cell. -/
def center (f : Field) : Expr K := .access f.centerAccess

/-- A component at the current cell. -/
def component (f : Field) (k : Nat) : Except BuildError (Expr K) :=
  (f.access k 0).map .access

/-- All components at an offset from the current cell. -/
def neighborVector (f : Field) (n : Offset) : List (Expr K) :=
  (List.range f.components).map fun k => .access (f.location k n)

/-- All components at the current cell. -/
def centerVector (f : Field) : List (Expr K) := f.neighborVector 0

end Reads

theorem stencil_eq_ok_iff (f : Field) (s : Stencil) : f.stencil = .ok s ↔ f.kind = .flux s := by
  obtain ⟨name, kind, element, layout, ghostLayers⟩ := f
  cases kind <;> simp [stencil]

theorem access_eq_ok_iff (f : Field) (component : Nat) (n : Offset) (a : Access) :
    f.access component n = .ok a ↔ component < f.components ∧ f.location component n = a := by
  by_cases h : component < f.components <;> simp [access, h]

@[simp] theorem location_inj (f : Field) {i j : Nat} {m n : Offset} :
    f.location i m = f.location j n ↔ i = j ∧ m = n := by
  simp [Field.location]

end Field

end Electrokinetics
