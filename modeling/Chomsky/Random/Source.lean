/-!
# Sources of random numbers

A source hands out the words of an endless stream, 32 bits each, and counts them. A choice among
`count` things multiplies a word by `count` and takes the high half of the product. Words whose low
half lies above a bound are refused, and the next word is tried: below the bound every choice has
equally many words.
-/

namespace Chomsky

/-- A stream of words, how many of them are used up, and how many refused words in a row a choice
puts up with before it is given up. -/
structure Source where
  stream : Nat → UInt32
  taken : Nat
  patience : Nat

namespace Source

/-- A stream from its beginning, with more patience than a choice needs in practice: at most half of
all words are refused. -/
def ofStream (stream : Nat → UInt32) : Source := ⟨stream, 0, 1 <<< 48⟩

/-- The given words, and zeros after them. -/
def ofList (words : List UInt32) : Source :=
  let words := words.toArray
  ofStream fun i => words.getD i 0

def next (s : Source) : UInt32 × Source := (s.stream s.taken, { s with taken := s.taken + 1 })

/-- The next words. -/
def take : Nat → Source → List UInt32 × Source
  | 0, s => ([], s)
  | count + 1, s =>
    let (word, s) := s.next
    let (words, s) := take count s
    (word :: words, s)

/-- The largest low half that is accepted for a choice among `count`: `count` shifted to the left
until it fills 32 bits, less one. -/
def acceptanceBound (count : Nat) : Nat := count <<< (31 - count.log2) - 1

/-- Chooses among `count` with at most so many words. -/
def chooseWithin (count : Nat) : Nat → Source → Option (Nat × Source)
  | 0, _ => none
  | tries + 1, s =>
    let (word, s) := s.next
    let product := word.toNat * count
    if product % UInt32.size ≤ acceptanceBound count then some (product / UInt32.size, s)
    else chooseWithin count tries s

/-- A number below `count`, which is positive and less than the number of words. There is none if
the source's patience runs out first. -/
def choose (count : Nat) (s : Source) : Option (Nat × Source) :=
  chooseWithin count (s.patience + 1) s

end Source

end Chomsky
