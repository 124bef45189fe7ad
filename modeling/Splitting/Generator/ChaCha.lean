/-!
# `Splitting.Generator.ChaCha` — the stream of random words

Random words are the keystream of ChaCha with eight rounds: a block of sixteen words is a function of the key
and of a 64-bit block number, and the stream is the blocks in order. The eight words of the key are drawn
from a 64-bit seed by a permuted congruential generator.

* `ChaCha.block` — one block of the keystream;
* `Seed.key` — the key that belongs to a seed;
* `Generator.next` — the next word, and the generator after it;
* `Generator.next64` — two words as one, the low half first.
-/

namespace Splitting

namespace ChaCha

/-- The sixteen words on which the rounds work. -/
abbrev Block := Vector UInt32 16

/-- The eight words of the key. -/
abbrev Key := Vector UInt32 8

def rotateLeft (x : UInt32) (n : UInt32) : UInt32 := (x <<< n) ||| (x >>> (32 - n))

/-- Mixes the words at the places `a`, `b`, `c` and `d`. -/
def quarterRound (s : Block) (a b c d : Fin 16) : Block :=
  let a1 := s.get a + s.get b
  let d1 := rotateLeft (s.get d ^^^ a1) 16
  let c1 := s.get c + d1
  let b1 := rotateLeft (s.get b ^^^ c1) 12
  let a2 := a1 + b1
  let d2 := rotateLeft (d1 ^^^ a2) 8
  let c2 := c1 + d2
  let b2 := rotateLeft (b1 ^^^ c2) 7
  (((s.set a a2 a.isLt).set b b2 b.isLt).set c c2 c.isLt).set d d2 d.isLt

/-- A round on the four columns of the block and a round on its four diagonals. -/
def doubleRound (s : Block) : Block :=
  let s := quarterRound s 0 4 8 12
  let s := quarterRound s 1 5 9 13
  let s := quarterRound s 2 6 10 14
  let s := quarterRound s 3 7 11 15
  let s := quarterRound s 0 5 10 15
  let s := quarterRound s 1 6 11 12
  let s := quarterRound s 2 7 8 13
  quarterRound s 3 4 9 14

/-- The block before the first round: four constant words, the key, the block number with its low word first,
    and a stream number of zero. -/
def initial (key : Key) (number : UInt64) : Block :=
  #v[0x61707865, 0x3320646e, 0x79622d32, 0x6b206574,
    key.get 0, key.get 1, key.get 2, key.get 3, key.get 4, key.get 5, key.get 6, key.get 7,
    number.toUInt32, (number >>> 32).toUInt32, 0, 0]

/-- Block `number` of the keystream: eight rounds, and the sum with the block they started from. -/
def block (key : Key) (number : UInt64) : Block :=
  let start := initial key number
  (doubleRound (doubleRound (doubleRound (doubleRound start)))).zipWith (· + ·) start

end ChaCha

namespace Seed

/-- One step of the congruential generator behind a seed. -/
def advance (state : UInt64) : UInt64 := state * 6364136223846793005 + 11634580027462260723

/-- The word that a state shows: high bits folded together, rotated right by the five highest. -/
def output (state : UInt64) : UInt32 :=
  let folded := (((state >>> 18) ^^^ state) >>> 27).toUInt32
  let turn := (state >>> 59).toUInt32
  (folded >>> turn) ||| (folded <<< ((32 - turn) &&& 31))

/-- The key that belongs to a seed: the words shown by the eight states that follow it. -/
def key (seed : UInt64) : ChaCha.Key :=
  let s0 := advance seed
  let s1 := advance s0
  let s2 := advance s1
  let s3 := advance s2
  let s4 := advance s3
  let s5 := advance s4
  let s6 := advance s5
  let s7 := advance s6
  #v[output s0, output s1, output s2, output s3, output s4, output s5, output s6, output s7]

end Seed

/-- A place in the stream of random words: the key, the number of the next block, and the words of the current
    block that are still unread. -/
structure Generator where
  key : ChaCha.Key
  nextBlock : UInt64
  unread : List UInt32
deriving DecidableEq, Repr

namespace Generator

/-- The beginning of the stream that belongs to a seed. -/
def ofSeed (seed : UInt64) : Generator := ⟨Seed.key seed, 0, []⟩

/-- The next word of the stream. -/
def next (g : Generator) : UInt32 × Generator :=
  match g.unread with
  | w :: rest => (w, { g with unread := rest })
  | [] =>
    let words := ChaCha.block g.key g.nextBlock
    (words.get 0, { g with nextBlock := g.nextBlock + 1, unread := words.toList.tail })

/-- The next two words as one of 64 bits, the low half first. -/
def next64 (g : Generator) : UInt64 × Generator :=
  let (low, g) := g.next
  let (high, g) := g.next
  (high.toUInt64 <<< 32 ||| low.toUInt64, g)

end Generator

end Splitting
