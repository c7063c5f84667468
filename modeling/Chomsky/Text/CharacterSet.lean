/-!
# Sets of characters

A property of characters that a standard fixes by listing scalar values is kept as a list of runs:
stretches in which every value, or every second one, has the property.
-/

namespace Chomsky

/-- The scalar values `first`, `first + step`, … up to `last`. -/
structure Run where
  first : Nat
  last : Nat
  step : Nat

def Run.holds (r : Run) (n : Nat) : Bool :=
  r.first ≤ n && n ≤ r.last && (n - r.first) % r.step == 0

abbrev CharacterSet := List Run

/-- Whether some run holds the character's scalar value. -/
def CharacterSet.holds (s : CharacterSet) (c : Char) : Bool :=
  s.any fun r => r.holds c.toNat

theorem Run.holds_iff {r : Run} {n : Nat} :
    r.holds n = true ↔ r.first ≤ n ∧ n ≤ r.last ∧ (n - r.first) % r.step = 0 := by
  simp [Run.holds, and_assoc]

theorem CharacterSet.holds_iff {s : CharacterSet} {c : Char} :
    s.holds c = true ↔ ∃ r ∈ s, r.holds c.toNat = true := by
  simp [CharacterSet.holds]

end Chomsky
