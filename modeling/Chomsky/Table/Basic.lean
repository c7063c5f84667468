import Chomsky.Positions

/-!
# Derivation tables

A table for a word of `n` letters has a cell for each stretch of the word. The cell at `span` and
`offset` belongs to the `span + 1` letters from `offset` on, so it exists when
`span + offset < n`. The cells of one span form a row, each row is one cell shorter than the row
before, and the rows lie one behind the other.
-/

namespace Chomsky

/-- The nonterminals found for every stretch of a word. -/
structure Table where
  wordLength : Nat
  nonterminals : List Char
  cells : Array Positions
deriving DecidableEq

namespace Table

/-- The table with nothing in its cells. -/
def blank (wordLength : Nat) (nonterminals : List Char) : Table :=
  ⟨wordLength, nonterminals,
    Array.replicate (wordLength * (wordLength + 1) / 2) (Positions.empty nonterminals.length)⟩

def hasCell (t : Table) (span offset : Nat) : Bool :=
  span < t.wordLength && offset < t.wordLength - span

/-- Where a cell lies: behind `span` rows of `wordLength`, `wordLength - 1`, … cells. -/
def slot (t : Table) (span offset : Nat) : Nat :=
  span * t.wordLength - span * (span - 1) / 2 + offset

/-- The set in a cell, none outside the triangle. -/
def get? (t : Table) (span offset : Nat) : Option Positions :=
  if t.hasCell span offset then t.cells[t.slot span offset]? else none

/-- Puts a set into a cell; outside the triangle nothing changes. -/
def put (t : Table) (span offset : Nat) (s : Positions) : Table :=
  if t.hasCell span offset then { t with cells := t.cells.setIfInBounds (t.slot span offset) s }
  else t

/-- The set in a cell, empty outside the triangle. -/
def get (t : Table) (span offset : Nat) : Positions :=
  (t.get? span offset).getD (.empty t.nonterminals.length)

/-- The nonterminals in a cell in the order of declaration, none outside the triangle. -/
def cell (t : Table) (span offset : Nat) : List Char :=
  match t.get? span offset with
  | some s => s.toList.filterMap fun i => t.nonterminals[i]?
  | none => []

def contains (t : Table) (span offset : Nat) (c : Char) : Bool :=
  match t.get? span offset, t.nonterminals.idxOf? c with
  | some s, some i => s.contains i
  | _, _ => false

/-- Whether `c` derives the whole word; nothing derives the empty word. -/
def derivesWord (t : Table) (c : Char) : Bool :=
  0 < t.wordLength && t.contains (t.wordLength - 1) 0 c

theorem hasCell_iff {t : Table} {span offset : Nat} :
    t.hasCell span offset = true ↔ span + offset < t.wordLength := by
  simp only [hasCell, Bool.and_eq_true, decide_eq_true_eq]
  omega

@[simp] theorem wordLength_put (t : Table) (span offset : Nat) (s : Positions) :
    (t.put span offset s).wordLength = t.wordLength := by
  unfold put
  split <;> rfl

@[simp] theorem nonterminals_put (t : Table) (span offset : Nat) (s : Positions) :
    (t.put span offset s).nonterminals = t.nonterminals := by
  unfold put
  split <;> rfl

@[simp] theorem size_cells_put (t : Table) (span offset : Nat) (s : Positions) :
    (t.put span offset s).cells.size = t.cells.size := by
  unfold put
  split <;> simp

end Table

end Chomsky
