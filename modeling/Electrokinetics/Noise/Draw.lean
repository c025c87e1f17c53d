/-
Random numbers as functions of where they are drawn.

A draw is identified by the cell, a channel, the time step and the seed.  Seed, time step and the x
and y counters make up the key of a keystream, the z counter its stream number, and the channel the
position in it.  No state passes from one draw to the next, so cells can be visited in any order,
and two cells with equal counters draw equal numbers.

The bits of a draw stand for what `rand` makes of the generator.  Assumed of it is the *draw
assumption*: a double is drawn by taking the next two words, the first as the lower half of 64 bits,
and dividing the upper 53 of these by `2 ^ 53`.

Main definitions:

* `KeystreamAddress` — a keystream and a position in it;
* `KeystreamAddress.ofKey` — where a draw reads: at two words of its channel's own;
* `KeystreamAddress.fraction` — the 53 bits of the draw;
* `unitDraw` — the draw, an element of the unit interval;
* `channelCount` — how many channels there are.
-/

import Electrokinetics.Grid.Axis
import Electrokinetics.Noise.ChaCha

set_option relaxedAutoImplicit false
set_option autoImplicit false

namespace Electrokinetics

/-- A position of a keystream. -/
structure KeystreamAddress where
  /-- The key of the keystream. -/
  key : ChaCha.Key
  /-- The stream number. -/
  stream : UInt64
  /-- The position of the first word that is read. -/
  position : Nat
  deriving DecidableEq

namespace KeystreamAddress

/-- The address of a draw.  Signed counters enter as words in two's complement. -/
def ofKey (counters : Cell) (channel timeStep seed : Nat) : KeystreamAddress :=
  let seed := UInt64.ofNat seed
  let timeStep := UInt64.ofNat timeStep
  let x := UInt64.ofInt counters.x
  let y := UInt64.ofInt counters.y
  { key := #v[ChaCha.low seed, ChaCha.high seed, ChaCha.low timeStep, ChaCha.high timeStep,
      ChaCha.low x, ChaCha.high x, ChaCha.low y, ChaCha.high y]
    stream := UInt64.ofInt counters.z
    position := 2 * channel }

/-- The word of the keystream at some distance from the address. -/
def word (a : KeystreamAddress) (distance : Nat) : UInt32 :=
  ChaCha.word a.key a.stream (a.position + distance)

/-- The upper 53 bits of the two words at the address, the first of which is the lower one: the draw
assumption. -/
def fraction (a : KeystreamAddress) : Nat :=
  ((a.word 1).toNat * Nat.pow 2 32 + (a.word 0).toNat) / Nat.pow 2 11

theorem fraction_lt (a : KeystreamAddress) : a.fraction < Nat.pow 2 53 := by
  have h0 := (a.word 0).toNat_lt
  have h1 := (a.word 1).toNat_lt
  simp only [fraction, Nat.pow_eq]
  omega

end KeystreamAddress

/-- The number of channels: a channel is a word of 32 bits. -/
def channelCount : Nat := Nat.pow 2 32

/-- The number drawn for a cell, channel, time step and seed: a multiple of `2 ^ -53`, at least `0`
and below `1`. -/
def unitDraw {K : Type} [Scalar K] (counters : Cell) (channel timeStep seed : Nat) : K :=
  Scalar.div (Scalar.ofInt (KeystreamAddress.ofKey counters channel timeStep seed).fraction)
    (Scalar.ofInt (Nat.pow 2 53))

end Electrokinetics
