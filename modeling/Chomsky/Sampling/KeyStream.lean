import Chomsky.Sampling.Choice

/-!
# Draws from a seed

A 64-bit seed is spread into a key of eight words by a permuted congruential
generator, and the key drives the ChaCha stream cipher with twelve rounds, whose
key stream is the sequence of draws.

## What this module delivers

- `KeyStream.ofSeed` and `KeyStream.source`.
- The parts they are made of: `Seed.words`, `ChaCha.block`.
-/

set_option autoImplicit false

namespace Chomsky

/-! ## From a seed to a key -/

namespace Seed

/-- One step of the congruential generator. -/
def advance (state : UInt64) : UInt64 := state * 6364136223846793005 + 11634580027462260723

/-- The word that a state of the generator stands for: its high bits folded and
rotated by the amount that the highest five bits say. -/
def output (state : UInt64) : UInt32 :=
  let folded := (((state >>> 18) ^^^ state) >>> 27).toUInt32
  let amount := (state >>> 59).toUInt32
  (folded >>> amount) ||| (folded <<< ((32 - amount) % 32))

/-- The first `count` words after a state. -/
def words : (count : Nat) → (state : UInt64) → List UInt32
  | 0, _ => []
  | count + 1, state => output (advance state) :: words count (advance state)

end Seed

/-! ## The block function -/

/-- The sixteen words that the cipher works on. -/
abbrev Block := Vector UInt32 16

namespace ChaCha

/-- Rotates a word to the left. -/
def rotate (w : UInt32) (amount : UInt32) : UInt32 :=
  (w <<< amount) ||| (w >>> (32 - amount))

/-- Adds the second word to the first, and mixes the sum into the third. -/
def mix (b : Block) (i j k : Fin 16) (amount : UInt32) : Block :=
  let sum := b[i] + b[j]
  (b.set i sum).set k (rotate (b[k] ^^^ sum) amount)

/-- The quarter round on four words. -/
def quarterRound (b : Block) (i j k l : Fin 16) : Block :=
  mix (mix (mix (mix b i j l 16) k l j 12) i j l 8) k l j 7

/-- A round on the columns and one on the diagonals. -/
def doubleRound (b : Block) : Block :=
  let b := quarterRound b 0 4 8 12
  let b := quarterRound b 1 5 9 13
  let b := quarterRound b 2 6 10 14
  let b := quarterRound b 3 7 11 15
  let b := quarterRound b 0 5 10 15
  let b := quarterRound b 1 6 11 12
  let b := quarterRound b 2 7 8 13
  quarterRound b 3 4 9 14

/-- Repeats the double round. -/
def doubleRounds : (count : Nat) → Block → Block
  | 0, b => b
  | count + 1, b => doubleRounds count (doubleRound b)

/-- The block before the rounds: four constants, the key, the counter of blocks
with its low word first, and two zero words. -/
def initial (key : Vector UInt32 8) (counter : UInt64) : Block :=
  #v[0x61707865, 0x3320646e, 0x79622d32, 0x6b206574,
     key[0], key[1], key[2], key[3], key[4], key[5], key[6], key[7],
     counter.toUInt32, (counter >>> 32).toUInt32, 0, 0]

/-- The key stream words of one block: the block after twelve rounds, added to
the block before them. -/
def block (key : Vector UInt32 8) (counter : UInt64) : List UInt32 :=
  let before := initial key counter
  (Vector.zipWith (· + ·) (doubleRounds 6 before) before).toList

end ChaCha

/-! ## The stream -/

/-- A position in the key stream of a key. -/
structure KeyStream where
  /-- The key. -/
  key : Vector UInt32 8
  /-- The number of the next block. -/
  counter : UInt64
  /-- The words of the present block that are still to be handed out. -/
  pending : List UInt32

namespace KeyStream

/-- The beginning of the key stream of a seed. -/
def ofSeed (seed : UInt64) : KeyStream :=
  let words := Seed.words 8 seed
  ⟨Vector.ofFn fun i => words[i.val]?.getD 0, 0, []⟩

/-- The next word of the key stream. -/
def next (s : KeyStream) : UInt32 × KeyStream :=
  match s.pending with
  | word :: rest => (word, { s with pending := rest })
  | [] =>
    match ChaCha.block s.key s.counter with
    | word :: rest => (word, { s with counter := s.counter + 1, pending := rest })
    | [] => (0, s)

/-- A key stream as a source. The stream repeats after 2^64 blocks of sixteen
words, so a draw that counts comes within them or never. -/
def source : DrawSource KeyStream := ⟨next, fun _ => 16 * UInt64.size⟩

end KeyStream

end Chomsky
