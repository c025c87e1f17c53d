/-
**Where random numbers read the keystream.**

A random key names a keystream, by seed, time step and two counters and by the third counter as stream
number, and two neighbouring words of it, by the channel.  The parts are packed into words of 64 bits
without loss, so different keys read different places: two keys have the same two words or none in
common, and never do two words of a key lie in different blocks.  That a draw is made of these two
words, and of which bits of them, rests on the keystream assumption and the draw assumption.

Main definitions:

* `KeystreamAddress.words` — the two words that a draw reads;
* `DrawnFrom` — a double that is made of the two words at an address;
* `Collection.DrawsAt` — a draw in a run of a kernel.

Main results:

* `KeystreamAddress.ofKey_eq_iff` — keys with the same address;
* `KeystreamAddress.disjoint_words`, `KeystreamAddress.block_of_mem_words` — words of draws;
* `drawnFrom_draw` — what a draw is made of;
* `Collection.drawsAt_foldedNoise` — the draws of a kernel with folded keys.
-/

import Electrokinetics.Proofs.Noise.Draws
import Electrokinetics.Proofs.Scalar.Quotient

set_option relaxedAutoImplicit false
set_option autoImplicit false

namespace Electrokinetics

/-! ### Integers as words -/

namespace ChaCha

theorem toNat_low (w : UInt64) : (low w).toNat = w.toNat % 2 ^ 32 := UInt64.toNat_toUInt32 w

theorem toNat_high (w : UInt64) : (high w).toNat = w.toNat / 2 ^ 32 % 2 ^ 32 := by
  rw [high, UInt64.toNat_toUInt32, UInt64.toNat_shiftRight, Nat.shiftRight_eq_div_pow]
  rfl

/-- A word of 64 bits is its two halves. -/
theorem eq_of_halves {v w : UInt64} (hlow : low v = low w) (hhigh : high v = high w) : v = w := by
  have hl := congrArg UInt32.toNat hlow
  have hh := congrArg UInt32.toNat hhigh
  rw [toNat_low, toNat_low] at hl
  rw [toNat_high, toNat_high] at hh
  have hv := v.toNat_lt
  have hw := w.toNat_lt
  refine UInt64.toNat_inj.1 ?_
  omega

end ChaCha

theorem UInt64.ofNat_inj_of_le {m n : ℕ} (hm : m ≤ exactBound) (hn : n ≤ exactBound)
    (h : UInt64.ofNat m = UInt64.ofNat n) : m = n := by
  have htoNat := congrArg UInt64.toNat h
  rw [UInt64.toNat_ofNat', UInt64.toNat_ofNat'] at htoNat
  simp only [exactBound] at hm hn
  omega

theorem UInt64.ofInt_inj_of_natAbs_le {i j : ℤ} (hi : i.natAbs ≤ exactBound)
    (hj : j.natAbs ≤ exactBound) (h : UInt64.ofInt i = UInt64.ofInt j) : i = j := by
  have htoNat := congrArg UInt64.toNat h
  rw [UInt64.ofInt, UInt64.ofInt, UInt64.toNat_ofNat', UInt64.toNat_ofNat'] at htoNat
  simp only [exactBound] at hi hj
  omega

namespace KeystreamAddress

/-! ### Addresses of keys -/

/-- Keys have one address only if all their parts are the same. -/
theorem ofKey_eq_iff {i i' : Cell} {k k' t t' s s' : ℕ} (hi : ∀ axis, (i.get axis).natAbs ≤ exactBound)
    (hi' : ∀ axis, (i'.get axis).natAbs ≤ exactBound) (ht : t ≤ exactBound) (ht' : t' ≤ exactBound)
    (hs : s ≤ exactBound) (hs' : s' ≤ exactBound) :
    ofKey i k t s = ofKey i' k' t' s' ↔ i = i' ∧ k = k' ∧ t = t' ∧ s = s' := by
  constructor
  · intro h
    obtain ⟨hkey, hstream, hposition⟩ := KeystreamAddress.mk.inj h
    have hword (n : Fin 8) := congrArg (fun key : ChaCha.Key => key[n]) hkey
    have hseed := ChaCha.eq_of_halves (hword 0) (hword 1)
    have htime := ChaCha.eq_of_halves (hword 2) (hword 3)
    have hx := ChaCha.eq_of_halves (hword 4) (hword 5)
    have hy := ChaCha.eq_of_halves (hword 6) (hword 7)
    refine ⟨?_, by omega, UInt64.ofNat_inj_of_le ht ht' htime, UInt64.ofNat_inj_of_le hs hs' hseed⟩
    ext axis
    cases axis with
    | x => exact UInt64.ofInt_inj_of_natAbs_le (hi .x) (hi' .x) hx
    | y => exact UInt64.ofInt_inj_of_natAbs_le (hi .y) (hi' .y) hy
    | z => exact UInt64.ofInt_inj_of_natAbs_le (hi .z) (hi' .z) hstream
  · rintro ⟨rfl, rfl, rfl, rfl⟩
    rfl

/-! ### Words -/

/-- The addresses of the two words that a draw reads. -/
def words (a : KeystreamAddress) : List KeystreamAddress :=
  [a, { a with position := a.position + 1 }]

/-- The bits of a draw are the upper 53 bits of the two words, of which the first has the lower
bits. -/
theorem fraction_eq_words (a : KeystreamAddress) :
    a.fraction = ((ChaCha.word a.key a.stream (a.position + 1)).toNat * 2 ^ 32 +
      (ChaCha.word a.key a.stream a.position).toNat) / 2 ^ 11 := by
  simp only [fraction, word, Nat.pow_eq, Nat.add_zero]

/-- Two draws at even positions read the same words or different ones. -/
theorem disjoint_words {a a' : KeystreamAddress} (h : 2 ∣ a.position) (h' : 2 ∣ a'.position)
    (hne : a ≠ a') : a.words.Disjoint a'.words := by
  intro w hw hw'
  simp only [words, List.mem_cons, List.not_mem_nil, or_false] at hw hw'
  obtain ⟨key, stream, position⟩ := a
  obtain ⟨key', stream', position'⟩ := a'
  have hsame : key = key' ∧ stream = stream' := by
    rcases hw with rfl | rfl <;> rcases hw' with hw' | hw' <;>
      exact ⟨congrArg KeystreamAddress.key hw', congrArg KeystreamAddress.stream hw'⟩
  have hposition : position = position' := by
    have heven : position % 2 = 0 := Nat.mod_eq_zero_of_dvd h
    have heven' : position' % 2 = 0 := Nat.mod_eq_zero_of_dvd h'
    rcases hw with rfl | rfl <;> rcases hw' with hw' | hw' <;>
      · have hp := congrArg KeystreamAddress.position hw'
        simp only at hp
        omega
  exact hne (by rw [hsame.1, hsame.2, hposition])

/-- The words of a draw lie in one block of sixteen. -/
theorem block_of_mem_words {a : KeystreamAddress} (h : 2 ∣ a.position) :
    ∀ w ∈ a.words, w.key = a.key ∧ w.stream = a.stream ∧ w.position / 16 = a.position / 16 := by
  simp only [words, List.forall_mem_cons, List.not_mem_nil, false_implies, implies_true, and_true,
    true_and]
  omega

end KeystreamAddress

/-- A double is drawn from the two words at an address: their upper 53 bits, of which the first word
has the lower ones, make a multiple of `2 ^ -53` in the unit interval. -/
structure DrawnFrom (v : Float) (a : KeystreamAddress) (m : ℕ) : Prop where
  draw : v = a.draw
  bits : m = ((ChaCha.word a.key a.stream (a.position + 1)).toNat * 2 ^ 32 +
    (ChaCha.word a.key a.stream a.position).toNat) / 2 ^ 11
  value : (Binary64.ofFloat v).value? = some ((m : ℚ) / 2 ^ 53)
  lt : m < 2 ^ 53

/-- Every draw comes from the two words at its address, without rounding. -/
theorem drawnFrom_draw (a : KeystreamAddress) : DrawnFrom a.draw a a.fraction := by
  have hlt : a.fraction < 2 ^ 53 := by
    rw [← Nat.pow_eq]
    exact a.fraction_lt
  have hsmall : (a.fraction : ℤ).natAbs ≤ exactBound := by
    rw [Int.natAbs_natCast, exactBound]
    exact hlt.le
  have hquotient (n : ℤ) (m : ℕ) :
      Scalar.div (Scalar.ofInt n : Float) (Scalar.ofInt m) = Float.ofInt n / Float.ofNat m := rfl
  refine ⟨rfl, a.fraction_eq_words, ?_, hlt⟩
  rw [KeystreamAddress.draw, hquotient,
    Double.value?_div (Double.hasInteger_ofInt hsmall) Nat.pow_eq, Int.cast_natCast]

/-! ### Draws of a kernel -/

section Kernels

variable {K : Type} [Scalar K] {c : Collection K} {fields : FieldValues K} {b : Bindings K} {x : Cell}

/-- In the run of a kernel at a cell, the random number of a direction is drawn at an address, and has
a value.  The subexpressions before it are evaluated first. -/
def Collection.DrawsAt (c : Collection K) (fields : FieldValues K) (b : Bindings K) (x : Cell) (k : ℕ)
    (a : KeystreamAddress) (v : K) : Prop :=
  ∃ s key env, c.subexpressions[k]? = some s ∧ s.symbol.name = noiseName k ∧ s.value = .random key ∧
    Collection.bindAll ⟨fields, b, x⟩ (c.subexpressions.take k) = .ok env ∧
    key.address env = .ok a ∧ s.value.eval env = .ok v

theorem Collection.DrawsAt.unique {k : ℕ} {a a' : KeystreamAddress} {v v' : K}
    (h : c.DrawsAt fields b x k a v) (h' : c.DrawsAt fields b x k a' v') : a = a' ∧ v = v' := by
  obtain ⟨s, key, env, hs, -, hkey, henv, ha, hv⟩ := h
  obtain ⟨s', key', env', hs', -, hkey', henv', ha', hv'⟩ := h'
  obtain rfl := Option.some.inj (hs.symm.trans hs')
  obtain rfl := Expr.random.inj (hkey.symm.trans hkey')
  obtain rfl := Except.ok.inj (henv.symm.trans henv')
  exact ⟨Except.ok.inj (ha.symm.trans ha'), Except.ok.inj (hv.symm.trans hv')⟩

/-- The draws of a kernel with folded keys, each of them at the address of its own key. -/
theorem Collection.drawsAt_foldedNoise {n : ℕ}
    (hc : c.subexpressions = (List.range n).map foldedNoise) (address : ℕ → KeystreamAddress)
    (haddress : ∀ k, (foldedKey k).address ⟨fields, b, x⟩ = .ok (address k)) {k : ℕ} (hk : k < n) :
    c.DrawsAt fields b x k (address k) (address k).draw := by
  have hdraw {b' : Bindings K} {i : ℕ}
      (h : (foldedKey i).address ⟨fields, b', x⟩ = .ok (address i)) :
      (foldedDraw i).eval ⟨fields, b', x⟩ = .ok (address i).draw := by
    rw [eval_foldedDraw_eq, h]
    rfl
  have hdraws : ∀ i ∈ List.range k, (foldedDraw i).eval ⟨fields, b, x⟩ = .ok (address i).draw :=
    fun i _ => hdraw (haddress i)
  obtain ⟨b', hbound, -, hothers⟩ := Collection.bindAll_foldedNoise hdraws
  have hparameters (p : Parameter) : b'.get? p.name = b.get? p.name :=
    hothers p.name fun i _ => (noiseName_ne_parameter i p).symm
  have hhere : (foldedKey k).address ⟨fields, b', x⟩ = .ok (address k) := by
    rw [address_foldedKey_congr hparameters, haddress]
  refine ⟨foldedNoise k, foldedKey k, ⟨fields, b', x⟩, ?_, rfl, foldedDraw_eq k, ?_, hhere,
    hdraw hhere⟩
  · rw [hc, List.getElem?_map, List.getElem?_range hk]
    rfl
  · rw [hc, ← List.map_take, List.take_range, min_eq_left hk.le]
    exact hbound

end Kernels

end Electrokinetics
