/-
The ChaCha keystream with eight rounds.

A key of eight words and a stream number select a keystream, an endless sequence of 32-bit words
that is produced in blocks of sixteen.  Any block can be computed on its own, which is what makes a
random number a function of where it is drawn.

The keystream stands for a generator that is taken from elsewhere, the `ChaCha8Rng` of `rand_chacha`.
Assumed of it is the *keystream assumption*: a generator made from a seed of 32 bytes, with a stream
number and a word position set, produces the words of this keystream from that position on, where the
key is the seed read as eight words with the lower byte first.

Main definitions:

* `ChaCha.quarterRound`, `ChaCha.doubleRound` — the mixing of a block;
* `ChaCha.initial` — constants, key, block number and stream number in one block;
* `ChaCha.block` — one block of the keystream;
* `ChaCha.word` — one word of the keystream.
-/

set_option relaxedAutoImplicit false
set_option autoImplicit false

namespace Electrokinetics

namespace ChaCha

/-- Sixteen words of 32 bits. -/
abbrev Block := Vector UInt32 16

/-- The key that selects a family of keystreams. -/
abbrev Key := Vector UInt32 8

/-- Rotates a word to the left. -/
def rotateLeft (w : UInt32) (bits : UInt32) : UInt32 := (w <<< bits) ||| (w >>> (32 - bits))

/-- Mixes four words of a block. -/
def quarterRound (i j k l : Fin 16) (s : Block) : Block :=
  let a := s[i] + s[j]
  let d := rotateLeft (s[l] ^^^ a) 16
  let c := s[k] + d
  let b := rotateLeft (s[j] ^^^ c) 12
  let a := a + b
  let d := rotateLeft (d ^^^ a) 8
  let c := c + d
  let b := rotateLeft (b ^^^ c) 7
  (((s.set i a).set j b).set k c).set l d

/-- Mixes the four columns of a block and then its four diagonals. -/
def doubleRound (s : Block) : Block :=
  let s := quarterRound 0 4 8 12 s
  let s := quarterRound 1 5 9 13 s
  let s := quarterRound 2 6 10 14 s
  let s := quarterRound 3 7 11 15 s
  let s := quarterRound 0 5 10 15 s
  let s := quarterRound 1 6 11 12 s
  let s := quarterRound 2 7 8 13 s
  quarterRound 3 4 9 14 s

/-- The lower half of a word of 64 bits. -/
def low (w : UInt64) : UInt32 := w.toUInt32

/-- The upper half of a word of 64 bits. -/
def high (w : UInt64) : UInt32 := (w >>> 32).toUInt32

/-- The block that is mixed: four constants, the key, the block number and the stream number. -/
def initial (key : Key) (stream number : UInt64) : Block :=
  #v[0x61707865, 0x3320646e, 0x79622d32, 0x6b206574,
    key[0], key[1], key[2], key[3], key[4], key[5], key[6], key[7],
    low number, high number, low stream, high stream]

/-- One block of the keystream: the initial block, mixed by eight rounds and added to itself. -/
def block (key : Key) (stream number : UInt64) : Block :=
  let start := initial key stream number
  let mixed := doubleRound (doubleRound (doubleRound (doubleRound start)))
  Vector.zipWith (· + ·) mixed start

/-- The word at a position of the keystream: the keystream assumption. -/
def word (key : Key) (stream : UInt64) (position : Nat) : UInt32 :=
  (block key stream (UInt64.ofNat (position / 16)))[position % 16]

end ChaCha

end Electrokinetics
