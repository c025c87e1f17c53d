/-
**What the builders of fluxes refuse.**

The sum of two fluxes and the noise on a flux check their arguments in a fixed order and report the
first offender: the number of assignments, then the faces that they write, then the names that both
define.  The collections that they are given have distinct targets and names, so that nothing else can
go wrong: targets stay distinct, and a name is defined twice only if both sides define it.

Main definitions:

* `SumOutcome` — what the sum of two fluxes comes to;
* `NoiseOutcome` — what the noise on a flux comes to.

Main results:

* `exists_sumOutcome`, `exists_noiseOutcome` — one of the outcomes applies;
* `fluxBuilders_report_first_offender` — the builders return just that outcome.
-/

import Electrokinetics.Proofs.Transport.Sum

set_option relaxedAutoImplicit false
set_option autoImplicit false

namespace Electrokinetics

variable {K : Type}

/-! ### Names in one scope -/

theorem Collection.exists_withSubexpressions {first second : List (Subexpression K)}
    (c : Collection K) (hfirst : (first.map fun s => s.symbol.name).Nodup)
    (hsecond : (second.map fun s => s.symbol.name).Nodup)
    (hdisjoint : (first.map fun s => s.symbol.name).Disjoint
      (second.map fun s => s.symbol.name)) :
    ∃ d : Collection K, c.withSubexpressions (first ++ second) = .ok d := by
  have hnodup : ((first ++ second).map fun s => s.symbol.name).Nodup := by
    rw [List.map_append]
    exact List.nodup_append'.2 ⟨hfirst, hsecond, hdisjoint⟩
  exact ⟨⟨c.main, first ++ second, c.nodup_targets, hnodup⟩,
    withSubexpressions_eq_ok_iff.2 ⟨rfl, rfl⟩⟩

theorem Collection.withSubexpressions_of_firstShared {c : Collection K}
    {first second : List (Subexpression K)} {k : Nat} {name : String}
    (hfirst : (first.map fun s => s.symbol.name).Nodup)
    (hsecond : (second.map fun s => s.symbol.name).Nodup)
    (h : FirstShared (first.map fun s => s.symbol.name) (second.map fun s => s.symbol.name) k name) :
    c.withSubexpressions (first ++ second) = .error (.duplicateSymbol name) := by
  refine withSubexpressions_eq_error_iff.2 ⟨name, ?_, rfl⟩
  rw [List.map_append]
  exact (firstRepeat?_append_eq_some_iff hfirst hsecond).2 ⟨k, h⟩

theorem firstShared_noiseName_iff {names : List String} {n k : Nat} {name : String} :
    FirstShared names ((List.range n).map noiseName) k name ↔
      k < n ∧ noiseName k = name ∧ name ∈ names ∧ ∀ i < k, noiseName i ∉ names := by
  constructor
  · rintro ⟨hitem, hshared, hbefore⟩
    rw [List.getElem?_map] at hitem
    obtain ⟨i, hi, rfl⟩ := Option.map_eq_some_iff.1 hitem
    obtain ⟨hk, rfl⟩ := List.getElem?_eq_some_iff.1 hi
    rw [List.length_range] at hk
    rw [List.getElem_range] at hshared ⊢
    refine ⟨hk, rfl, hshared, fun i hik => hbefore _ ?_⟩
    rw [← List.map_take, List.take_range, min_eq_left hk.le]
    exact List.mem_map_of_mem (List.mem_range.2 hik)
  · rintro ⟨hk, rfl, hshared, hbefore⟩
    refine ⟨?_, hshared, fun a ha => ?_⟩
    · rw [List.getElem?_map, List.getElem?_range hk]
      rfl
    · rw [← List.map_take, List.take_range, min_eq_left hk.le] at ha
      obtain ⟨i, hi, rfl⟩ := List.mem_map.1 ha
      exact hbefore i (List.mem_range.1 hi)

theorem disjoint_noiseNames_iff {names : List String} {n : Nat} :
    names.Disjoint ((List.range n).map noiseName) ↔ ∀ k < n, noiseName k ∉ names := by
  constructor
  · exact fun h k hk hmem => h hmem (List.mem_map_of_mem (List.mem_range.2 hk))
  · intro h name hmem hnoise
    obtain ⟨k, hk, rfl⟩ := List.mem_map.1 hnoise
    exact h k (List.mem_range.1 hk) hmem

theorem Collection.length_targets (c : Collection K) : c.targets.length = c.main.length :=
  List.length_map _

variable [Scalar K]

/-! ### The sum of two fluxes -/

section Sum

variable {adv diff : Collection K}

/-- What the sum of two fluxes comes to. -/
inductive SumOutcome (adv diff : Collection K) : Except BuildError (Collection K) → Prop
  /-- They have different numbers of assignments. -/
  | countMismatch (hcount : adv.main.length ≠ diff.main.length) :
      SumOutcome adv diff (.error (.fluxCountMismatch adv.main.length diff.main.length))
  /-- They are equally long, and `k` is the least direction in which they write different targets. -/
  | targetMismatch {k : Nat} {a b : Access} (hcount : adv.main.length = diff.main.length)
      (hfirst : FirstDifference adv.targets diff.targets k a b) :
      SumOutcome adv diff (.error (.fluxTargetMismatch k a.text b.text))
  /-- They write the same targets, and a name of the second one is the first that both define. -/
  | sharedName {k : Nat} {name : String} (htargets : adv.targets = diff.targets)
      (hfirst : FirstShared adv.names diff.names k name) :
      SumOutcome adv diff (.error (.duplicateSymbol name))
  /-- They write the same targets and define no common name. -/
  | sum {sum : Collection K} (htargets : adv.targets = diff.targets)
      (hnames : adv.names.Disjoint diff.names) (hsum : sum.targets = adv.targets)
      (hvalues : sum.main = addValues adv.main diff.main)
      (hsubexpressions : sum.subexpressions = adv.subexpressions ++ diff.subexpressions) :
      SumOutcome adv diff (.ok sum)

theorem exists_plainSum (htargets : adv.targets = diff.targets) :
    ∃ plain : Collection K, addFluxes adv diff =
      plain.withSubexpressions (adv.subexpressions ++ diff.subexpressions) := by
  have hcount := Collection.length_main_eq htargets
  rw [addFluxes, dif_pos hcount, (firstMisaligned?_eq_none_iff hcount 0).2 htargets]
  exact ⟨_, rfl⟩

/-- Fluxes that write the same targets have a sum, unless both define some name. -/
theorem exists_sumOutcome_of_targets (htargets : adv.targets = diff.targets) :
    ∃ outcome, SumOutcome adv diff outcome := by
  obtain hnames | ⟨k, name, hfirst⟩ := disjoint_or_exists_firstShared adv.names diff.nodup_names
  · obtain ⟨plain, hplain⟩ := exists_plainSum htargets
    obtain ⟨sum, hsum⟩ := plain.exists_withSubexpressions adv.nodup_names diff.nodup_names hnames
    obtain ⟨-, hvalues, hsubexpressions⟩ := addFluxes_eq_ok_iff.1 (hplain.trans hsum)
    have htarget : sum.targets = adv.targets := by
      rw [Collection.targets, hvalues, map_target_addValues (Collection.length_main_eq htargets),
        Collection.targets]
    exact ⟨_, .sum htargets hnames htarget hvalues hsubexpressions⟩
  · exact ⟨_, .sharedName htargets hfirst⟩

theorem exists_sumOutcome (adv diff : Collection K) : ∃ outcome, SumOutcome adv diff outcome := by
  by_cases hcount : adv.main.length = diff.main.length
  · have hlength : adv.targets.length = diff.targets.length := by
      rwa [Collection.length_targets, Collection.length_targets]
    obtain htargets | ⟨k, a, b, hfirst⟩ := eq_or_exists_firstDifference hlength
    · exact exists_sumOutcome_of_targets htargets
    · exact ⟨_, .targetMismatch hcount hfirst⟩
  · exact ⟨_, .countMismatch hcount⟩

theorem SumOutcome.addFluxes_eq {outcome : Except BuildError (Collection K)}
    (h : SumOutcome adv diff outcome) : addFluxes adv diff = outcome := by
  cases h with
  | countMismatch hcount => rw [addFluxes, dif_neg hcount]
  | @targetMismatch k a b hcount hfirst =>
      have hsearch : firstMisaligned? 0 adv.main diff.main = some (k, a, b) := by
        rw [firstMisaligned?_eq]
        exact firstDifference?_eq_some_iff.2 ⟨k, (Nat.zero_add k).symm, hfirst⟩
      rw [addFluxes, dif_pos hcount, hsearch]
  | sharedName htargets hfirst =>
      obtain ⟨plain, hplain⟩ := exists_plainSum htargets
      rw [hplain]
      exact Collection.withSubexpressions_of_firstShared adv.nodup_names diff.nodup_names hfirst
  | sum htargets _ _ hvalues hsubexpressions =>
      exact addFluxes_eq_ok_iff.2 ⟨htargets, hvalues, hsubexpressions⟩

end Sum

/-! ### Noise on a flux -/

section Noise

variable {flux : Collection K} {c j : Field} {d : Expr K} {factor : K} {stencil : Stencil}

/-- What the noise on a flux comes to. -/
inductive NoiseOutcome (flux : Collection K) (c j : Field) (d : Expr K) (factor : K) :
    Except BuildError (Collection K) → Prop
  /-- The field has no faces. -/
  | notStaggered (hkind : ∀ stencil, j.kind ≠ .flux stencil) :
      NoiseOutcome flux c j d factor (.error (.notStaggered j.name))
  /-- The flux does not have one assignment for each direction. -/
  | countMismatch {stencil : Stencil} (hkind : j.kind = .flux stencil)
      (hcount : flux.main.length ≠ stencil.staggered.length) :
      NoiseOutcome flux c j d factor
        (.error (.directionCountMismatch j.name stencil.staggered.length flux.main.length))
  /-- It has, and `k` is the least direction whose face is not written. -/
  | faceMismatch {stencil : Stencil} {k : Nat} {expected found : Access}
      (hkind : j.kind = .flux stencil) (hcount : flux.main.length = stencil.staggered.length)
      (hfirst : FirstDifference ((List.range stencil.staggered.length).map (j.location · 0))
        flux.targets k expected found) :
      NoiseOutcome flux c j d factor (.error (.faceTargetMismatch k expected.text found.text))
  /-- It writes the faces, and `k` is the least direction the name of whose random number it
  defines. -/
  | definedName {stencil : Stencil} {k : Nat} (hkind : j.kind = .flux stencil)
      (htargets : flux.targets = (List.range stencil.staggered.length).map (j.location · 0))
      (hk : k < stencil.staggered.length) (hdefined : noiseName k ∈ flux.names)
      (hbefore : ∀ i < k, noiseName i ∉ flux.names) :
      NoiseOutcome flux c j d factor (.error (.duplicateSymbol (noiseName k)))
  /-- It writes the faces and defines no name of a random number. -/
  | noise {stencil : Stencil} {noisy : Collection K} (hkind : j.kind = .flux stencil)
      (htargets : flux.targets = (List.range stencil.staggered.length).map (j.location · 0))
      (hnames : ∀ k < stencil.staggered.length, noiseName k ∉ flux.names)
      (hnoisy : noisy.targets = flux.targets)
      (hvalues : noisy.main = noisyValues c d factor stencil.staggered flux.main)
      (hsubexpressions : noisy.subexpressions =
        flux.subexpressions ++ (List.range stencil.staggered.length).map noiseDraw) :
      NoiseOutcome flux c j d factor (.ok noisy)

theorem Field.stencil_eq_error_iff (j : Field) {e : BuildError} :
    j.stencil = .error e ↔ (∀ stencil, j.kind ≠ .flux stencil) ∧ e = .notStaggered j.name := by
  obtain ⟨name, kind, element, layout, ghostLayers⟩ := j
  cases kind <;> simp [stencil, eq_comm]

/-- A flux that writes the faces receives noise, unless it defines a name of a random number. -/
theorem exists_noiseOutcome_of_targets (c : Field) (d : Expr K) (factor : K)
    (hkind : j.kind = .flux stencil)
    (htargets : flux.targets = (List.range stencil.staggered.length).map (j.location · 0)) :
    ∃ outcome, NoiseOutcome flux c j d factor outcome := by
  have hdistinct := nodup_noiseNames stencil.staggered.length
  obtain hnames | ⟨k, name, hfirst⟩ := disjoint_or_exists_firstShared flux.names hdistinct
  · obtain ⟨plain, hmain, hplain⟩ := exists_plainNoise flux c d factor hkind htargets
    have hdraws := hnames
    rw [← map_name_noiseDraws (K := K)] at hdraws
    obtain ⟨noisy, hnoisy⟩ :=
      plain.exists_withSubexpressions flux.nodup_names (nodup_noiseDraws _) hdraws
    obtain ⟨hvalues, hsubexpressions⟩ := Collection.withSubexpressions_eq_ok_iff.1 hnoisy
    have htarget : noisy.targets = flux.targets := by
      rw [Collection.targets, hvalues, hmain,
        map_target_noisyValues c d factor (length_main_of_faces htargets), Collection.targets]
    exact ⟨_, .noise hkind htargets (disjoint_noiseNames_iff.1 hnames) htarget
      (hvalues.trans hmain) hsubexpressions⟩
  · obtain ⟨hk, rfl, hdefined, hbefore⟩ := firstShared_noiseName_iff.1 hfirst
    exact ⟨_, .definedName hkind htargets hk hdefined hbefore⟩

theorem exists_noiseOutcome (flux : Collection K) (c j : Field) (d : Expr K) (factor : K) :
    ∃ outcome, NoiseOutcome flux c j d factor outcome := by
  by_cases hflux : ∃ stencil, j.kind = .flux stencil
  · obtain ⟨stencil, hkind⟩ := hflux
    by_cases hcount : flux.main.length = stencil.staggered.length
    · have hlength : ((List.range stencil.staggered.length).map (j.location · 0)).length =
          flux.targets.length := by
        rw [List.length_map, List.length_range, Collection.length_targets, hcount]
      obtain htargets | ⟨k, expected, found, hfirst⟩ := eq_or_exists_firstDifference hlength
      · exact exists_noiseOutcome_of_targets c d factor hkind htargets.symm
      · exact ⟨_, .faceMismatch hkind hcount hfirst⟩
    · exact ⟨_, .countMismatch hkind hcount⟩
  · exact ⟨_, .notStaggered (not_exists.1 hflux)⟩

theorem NoiseOutcome.addNoise_eq {outcome : Except BuildError (Collection K)}
    (h : NoiseOutcome flux c j d factor outcome) : addNoise flux c j d factor = outcome := by
  cases h with
  | notStaggered hkind =>
      rw [addNoise, j.stencil_eq_error_iff.2 ⟨hkind, rfl⟩]
      rfl
  | countMismatch hkind hcount =>
      rw [addNoise, (j.stencil_eq_ok_iff _).2 hkind]
      change dite _ _ _ = _
      rw [dif_neg hcount]
  | @faceMismatch stencil k expected found hkind hcount hfirst =>
      rw [addNoise, (j.stencil_eq_ok_iff stencil).2 hkind]
      change dite _ _ _ = _
      rw [dif_pos hcount, checkFaces_eq_error hkind hcount hfirst]
      rfl
  | definedName hkind htargets hk hdefined hbefore =>
      obtain ⟨plain, -, hplain⟩ := exists_plainNoise flux c d factor hkind htargets
      rw [hplain]
      have hfirst := firstShared_noiseName_iff.2 ⟨hk, rfl, hdefined, hbefore⟩
      rw [← map_name_noiseDraws (K := K)] at hfirst
      exact Collection.withSubexpressions_of_firstShared flux.nodup_names (nodup_noiseDraws _) hfirst
  | noise hkind htargets _ _ hvalues hsubexpressions =>
      obtain ⟨plain, hmain, hplain⟩ := exists_plainNoise flux c d factor hkind htargets
      rw [hplain]
      exact Collection.withSubexpressions_eq_ok_iff.2 ⟨hvalues.trans hmain.symm, hsubexpressions⟩

end Noise

/-! ### The first offender -/

/-- **Checks of the flux builders**: the sum of two fluxes and the noise on a flux come to what their
arguments call for and to nothing else.  They fail exactly if something is misaligned or defined twice,
and they report the first offender. -/
theorem fluxBuilders_report_first_offender :
    (∀ (adv diff : Collection K) (outcome : Except BuildError (Collection K)),
      addFluxes adv diff = outcome ↔ SumOutcome adv diff outcome) ∧
    ∀ (flux : Collection K) (c j : Field) (d : Expr K) (factor : K)
      (outcome : Except BuildError (Collection K)),
      addNoise flux c j d factor = outcome ↔ NoiseOutcome flux c j d factor outcome := by
  constructor
  · intro adv diff outcome
    refine ⟨?_, SumOutcome.addFluxes_eq⟩
    rintro rfl
    obtain ⟨outcome, h⟩ := exists_sumOutcome adv diff
    exact h.addFluxes_eq.symm ▸ h
  · intro flux c j d factor outcome
    refine ⟨?_, NoiseOutcome.addNoise_eq⟩
    rintro rfl
    obtain ⟨outcome, h⟩ := exists_noiseOutcome flux c j d factor
    exact h.addNoise_eq.symm ▸ h

end Electrokinetics
