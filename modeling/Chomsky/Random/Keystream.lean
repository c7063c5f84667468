import Chomsky.Random.Source

/-!
# Seeded sources

A seed is stretched to a key of eight words by a permuted congruential generator. The stream is then
the keystream of the ChaCha cipher with twelve rounds under that key: sixteen words from each block,
blocks counted from zero, with an empty nonce.
-/

namespace Chomsky

/-- Sixteen words, read as a square of four rows. -/
abbrev Block := Vector UInt32 16

namespace Block

def rotateLeft (x : UInt32) (n : UInt32) : UInt32 := (x <<< n) ||| (x >>> (32 - n))

def rotateRight (x : UInt32) (n : UInt32) : UInt32 := (x >>> n) ||| (x <<< (32 - n))

/-- Adds, mixes and rotates four words of the square. -/
def quarterRound (s : Block) (i j k l : Fin 16) : Block :=
  let a := s[i]
  let b := s[j]
  let c := s[k]
  let d := s[l]
  let a := a + b
  let d := rotateLeft (d ^^^ a) 16
  let c := c + d
  let b := rotateLeft (b ^^^ c) 12
  let a := a + b
  let d := rotateLeft (d ^^^ a) 8
  let c := c + d
  let b := rotateLeft (b ^^^ c) 7
  (((s.set i a).set j b).set k c).set l d

/-- The four columns, then the four diagonals. -/
def doubleRound (s : Block) : Block :=
  let s := s.quarterRound 0 4 8 12
  let s := s.quarterRound 1 5 9 13
  let s := s.quarterRound 2 6 10 14
  let s := s.quarterRound 3 7 11 15
  let s := s.quarterRound 0 5 10 15
  let s := s.quarterRound 1 6 11 12
  let s := s.quarterRound 2 7 8 13
  s.quarterRound 3 4 9 14

/-- The square a block begins with: the constants, the key, the counter and the empty nonce. -/
def initial (key : Vector UInt32 8) (counter : UInt64) : Block :=
  #v[0x61707865, 0x3320646E, 0x79622D32, 0x6B206574,
     key[0], key[1], key[2], key[3], key[4], key[5], key[6], key[7],
     counter.toUInt32, (counter >>> 32).toUInt32, 0, 0]

/-- One block of the keystream: twelve rounds, and the square it began with added. -/
def keystream (key : Vector UInt32 8) (counter : UInt64) : Block :=
  let start := initial key counter
  let mixed := start.doubleRound.doubleRound.doubleRound.doubleRound.doubleRound.doubleRound
  Vector.zipWith (· + ·) mixed start

end Block

/-- The next state of the congruential generator. -/
def advanceSeed (state : UInt64) : UInt64 :=
  state * 6364136223846793005 + 11634580027462260723

/-- The word a state stands for: its high bits folded, and rotated by the highest five. -/
def seedWord (state : UInt64) : UInt32 :=
  Block.rotateRight (((state >>> 18) ^^^ state) >>> 27).toUInt32 (state >>> 59).toUInt32

/-- The states that follow a seed. -/
def seedStates : Nat → UInt64 → List UInt64
  | 0, _ => []
  | count + 1, state => advanceSeed state :: seedStates count (advanceSeed state)

/-- The key a seed stands for. -/
def seedKey (seed : UInt64) : Vector UInt32 8 :=
  let words := ((seedStates 8 seed).map seedWord).toArray
  Vector.ofFn fun i => words.getD i 0

/-- The source a seed stands for. -/
def Source.ofSeed (seed : UInt64) : Source :=
  let key := seedKey seed
  .ofStream fun i => (Block.keystream key (i / 16).toUInt64)[i % 16]

end Chomsky
