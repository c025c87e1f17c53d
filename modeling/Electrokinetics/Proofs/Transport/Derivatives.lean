/-
**Derivatives that are left on a face.**

Bringing an expression onto a face replaces a derivative by a difference of the expression below it,
with its reads moved.  Nothing looks for derivatives in there, so one that stands inside another
derivative is still one afterwards, and no derivative has a value.  These are the only ones that are
left: wherever they stand, in products, conditions or keys of draws, all others are replaced.

Main definitions:

* `Expr.Nests` — a derivative along an axis stands inside another one;
* `Expr.DerivativesAlong` — a node is no derivative, except along some axes.

Main results:

* `Expr.all_onFace_of_nests` — what is left on a face;
* `Expr.exists_deriv_of_fault` — the derivative that evaluation fails of;
* `FiniteVolume.faceFlux_derivatives` — what is left in a flux, and what evaluation finds of it;
* `FiniteVolume.faceFlux_second_derivative` — a derivative that is left.
-/

import Electrokinetics.Proofs.Parameters
import Electrokinetics.Proofs.Transport.Nodes

set_option relaxedAutoImplicit false
set_option autoImplicit false

namespace Electrokinetics

namespace Expr

/-! ### Derivatives along some axes -/

section Axes

variable {K : Type} {A : Axis → Prop}

/-- A derivative along an axis stands inside another derivative. -/
def Nests (e : Expr K) (axis : Axis) : Prop :=
  ∃ arg outer inner, .deriv arg outer ∈ e.subterms ∧ .deriv inner axis ∈ arg.subterms

/-- A node is no derivative, except along some axes. -/
def DerivativesAlong (A : Axis → Prop) : Expr K → Prop
  | .deriv _ axis => A axis
  | _ => True

theorem combines_derivativesAlong : Combines (K := K) (DerivativesAlong A) where
  num _ := trivial
  sum _ := trivial
  prod _ := trivial
  power _ _ := trivial
  select _ _ _ := trivial
  call _ _ _ := trivial
  call_congr _ _ _ _ _ := trivial
  modulo_congr _ _ _ _ _ := trivial

variable [Scalar K] {e : Expr K} {n : Offset}

/-- Moving reads makes no derivatives. -/
theorem All.shift_derivatives (h : e.All (DerivativesAlong A)) (n : Offset) :
    (e.shift n).All (DerivativesAlong A) := by
  refine All.transform combines_derivativesAlong (h.mono fun t ht => ?_)
  cases t with
  | access a => exact all_access.2 trivial
  | deriv arg axis => exact fun _ => ht
  | random key => exact fun _ => trivial
  | _ => trivial

/-- On a face only those derivatives are left that stand inside others. -/
theorem all_onFace_of_nests (h : ∀ axis, e.Nests axis → A axis) :
    e.All (OnFace (DerivativesAlong A) n) := by
  intro t ht
  cases t with
  | access a => exact ⟨trivial, trivial⟩
  | deriv arg outer =>
      have harg : arg.All (DerivativesAlong A) := by
        intro u hu
        cases u with
        | deriv inner axis => exact h axis ⟨arg, outer, inner, ht, hu⟩
        | _ => trivial
      exact All.faceDerivative_of_shifts combines_derivativesAlong harg.shift_derivatives harg outer n
  | random key => exact fun _ => trivial
  | _ => trivial

end Axes

/-! ### Faults of derivatives -/

variable {K : Type} [Scalar K] {A : Axis → Prop} {env : Env K} {e : Expr K}

/-- A fault is none of a derivative, except along some axes. -/
def FaultsAlong (A : Axis → Prop) (fault : EvalError K) : Prop :=
  ∀ axis, fault = .undiscretizedDerivative axis → A axis

theorem failsOnly_of_derivatives (h : e.All (DerivativesAlong A)) :
    FailsOnly (FaultsAlong A) (e.eval env) := by
  refine failsOnly_eval ⟨?_, ?_, ?_⟩ fun t ht => ?_
  · rintro part fault axis ⟨⟩
  · rintro axis ⟨⟩
  · rintro f found axis ⟨⟩
  have hself := h t ht
  cases t with
  | symbol s => rintro - axis ⟨⟩
  | access a => rintro - axis ⟨⟩
  | deriv arg axis =>
      rintro other ⟨⟩
      exact hself
  | _ => trivial

/-- Where evaluation fails because of a derivative, there is one. -/
theorem exists_deriv_of_fault {axis : Axis}
    (h : e.eval env = .error (.undiscretizedDerivative axis)) :
    ∃ arg, .deriv arg axis ∈ e.subterms := by
  by_contra hnone
  have hothers : e.All (DerivativesAlong fun other => other ≠ axis) := by
    intro t ht
    cases t with
    | deriv arg other =>
        rintro rfl
        exact hnone ⟨arg, ht⟩
    | _ => trivial
  exact failsOnly_of_derivatives hothers _ h axis rfl rfl

end Expr

/-! ### Fluxes -/

namespace FiniteVolume

open Electrokinetics.Expr

variable {K : Type} [Scalar K]

/-- **Derivatives that are left in a flux**, in whatever arithmetic: where a flux has been built, every
derivative in it is one along an axis along which one stood inside another derivative, and only for
such an axis evaluation can fail because of a derivative. -/
theorem faceFlux_derivatives (v : FiniteVolume K) (j : Field) (flux : Collection K)
    (hflux : v.faceFlux j = .ok flux) :
    (∀ e ∈ flux.values, ∀ arg axis, .deriv arg axis ∈ e.subterms →
      ∃ component, (v.flux.get component).Nests axis) ∧
    ∀ fields b x axis, flux.evalAt fields b x = .error (.undiscretizedDerivative axis) →
      ∃ component, (v.flux.get component).Nests axis := by
  let A (axis : Axis) : Prop := ∃ component, (v.flux.get component).Nests axis
  obtain ⟨stencil, hstencil, -⟩ := bind_eq_ok.1 hflux
  have hfaces := v.faceFlux_eq ((j.stencil_eq_ok_iff stencil).1 hstencil)
  obtain rfl := Except.ok.inj (hfaces.symm.trans hflux)
  have hvalue (n : Offset) : (v.faceValue n).All (DerivativesAlong A) := by
    refine all_faceValue combines_derivativesAlong fun component _ => ?_
    exact all_onFace_of_nests fun axis haxis => ⟨component, haxis⟩
  refine ⟨fun e he arg axis hderiv => ?_, fun fields b x axis hfault => ?_⟩
  · rw [Collection.values_ofFaces] at he
    obtain ⟨p, -, rfl⟩ := List.mem_map.1 he
    exact hvalue p.1.offset _ hderiv
  · refine Collection.failsOnly_evalMain (Q := FaultsAlong A) (fun a ha => ?_) _ hfault axis rfl
    rw [Collection.main_ofFaces] at ha
    obtain ⟨p, -, rfl⟩ := List.mem_map.1 ha
    exact failsOnly_of_derivatives (hvalue p.1.offset)

/-- Derivatives in a product, a condition and the key of a draw. -/
def firstOrderFlux : PerAxis (Expr Float) :=
  let c : Expr Float := .access ⟨"c", 0, 0⟩
  ⟨.prod [c, .deriv c .x], .select (.greater (.deriv c .z) c) c (.deriv (.power c c) .y),
    .random ⟨⟨.deriv c .x, .counter .y, .counter .z⟩, 0, .num 0, .num 0⟩⟩

/-- None of these derivatives is left, and none makes evaluation fail. -/
theorem faceFlux_derivatives_firstOrder :
    ∃ flux, faceFlux ⟨.scalar "c", firstOrderFlux⟩ (.flux "j" .d3q27) = .ok flux ∧
      (∀ e ∈ flux.values, ∀ arg axis, .deriv arg axis ∉ e.subterms) ∧
      ∀ fields b x axis, flux.evalAt fields b x ≠ .error (.undiscretizedDerivative axis) := by
  let c : Expr Float := .access ⟨"c", 0, 0⟩
  have hnests (component axis : Axis) : ¬(firstOrderFlux.get component).Nests axis := by
    rintro ⟨arg, outer, inner, houter, hinner⟩
    -- What is differentiated is the field or its square.
    have harg : arg = c ∨ arg = .power c c := by
      cases component with
      | x | z =>
          have h : arg = c ∧ outer = .x := by
            simpa [firstOrderFlux, PerAxis.get, subterms, subtermsList, c] using houter
          exact .inl h.1
      | y =>
          have h : (arg = c ∧ outer = .z) ∨ arg = .power c c ∧ outer = .y := by
            simpa [firstOrderFlux, PerAxis.get, subterms, Cond.subterms, c] using houter
          exact h.imp And.left And.left
    obtain rfl | rfl := harg <;> simp [c, subterms] at hinner
  have hflux := faceFlux_eq ⟨.scalar "c", firstOrderFlux⟩ (j := .flux "j" .d3q27) rfl
  obtain ⟨hvalues, hfaults⟩ := faceFlux_derivatives _ _ _ hflux
  refine ⟨_, hflux, fun e he arg axis hderiv => ?_, fun fields b x axis hfault => ?_⟩
  · obtain ⟨component, h⟩ := hvalues e he arg axis hderiv
    exact hnests component axis h
  · obtain ⟨component, h⟩ := hfaults fields b x axis hfault
    exact hnests component axis h

/-- The second derivative of a field is left as a first one, and evaluation fails because of it. -/
theorem faceFlux_second_derivative :
    let second : Expr Float := .deriv (.deriv (.access ⟨"c", 0, 0⟩) .x) .x
    ∃ flux, faceFlux ⟨.scalar "c", ⟨second, .zero, .zero⟩⟩ (.flux "j" .d3q7) = .ok flux ∧
      (∃ e ∈ flux.values, ∃ arg, .deriv arg .x ∈ e.subterms) ∧
      flux.evalAt (fun _ _ _ => some 1) ∅ 0 = .error (.undiscretizedDerivative .x) := by
  intro second
  let c : FiniteVolume Float := ⟨.scalar "c", ⟨second, .zero, .zero⟩⟩
  have hfault : (c.faceValue ⟨-1, 0, 0⟩).eval (.ofFields fun _ _ _ => some 1) =
      .error (.undiscretizedDerivative .x) := by
    decide +kernel
  have hfound : (⟨"W", ⟨-1, 0, 0⟩⟩, 0) ∈ Stencil.d3q7.staggered.zipIdx := by
    decide
  refine ⟨_, faceFlux_eq c rfl, ⟨c.faceValue ⟨-1, 0, 0⟩, ?_, exists_deriv_of_fault hfault⟩, ?_⟩
  · rw [Collection.values_ofFaces]
    exact List.mem_map.2 ⟨_, hfound, rfl⟩
  · decide +kernel

end FiniteVolume

end Electrokinetics
