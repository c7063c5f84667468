import Chomsky.Event
import Chomsky.Producers
import Chomsky.Table.Basic

/-!
# Filling a table

The table of a word is filled by rows, shorter stretches first and each row from left to right. One
letter is derived by its producers; a longer stretch by the producers of every pair whose parts
derive the two sides of one of its splits. Both sides are shorter, so their cells are filled before.
-/

namespace Chomsky

/-- The cells of a triangle over `n` letters, as pairs of span and offset, in filling order. -/
def coordinates (n : Nat) : List (Nat × Nat) :=
  (List.range n).flatMap fun span => (List.range (n - span)).map fun offset => (span, offset)

namespace Producers

/-- What derives the single letter at `offset`. -/
def atLetter (p : Producers) (word : Word) (offset : Nat) : Positions :=
  ((word[offset]?).bind p.ofLetter?).getD (.empty p.width)

/-- What derives a longer stretch, one split after the other. -/
def atSplits (p : Producers) (t : Table) (span offset : Nat) : Positions :=
  (List.range span).foldl (fun found split =>
    p.combine (t.get split offset) (t.get (span - split - 1) (offset + split + 1)) found)
    (.empty p.width)

/-- What derives the stretch of a cell, given the cells of the shorter stretches. -/
def atCell (p : Producers) (word : Word) (t : Table) (span offset : Nat) : Positions :=
  if span = 0 then p.atLetter word offset else p.atSplits t span offset

end Producers

/-- A table under construction with an event for each cell filled so far. -/
structure Filling where
  table : Table
  log : Array Event

/-- Fills one cell and reports what it holds then. -/
def Filling.step (p : Producers) (word : Word) (f : Filling) (place : Nat × Nat) : Filling :=
  let (span, offset) := place
  let table := f.table.put span offset (p.atCell word f.table span offset)
  { table, log := f.log.push (.filled span offset (table.cell span offset)) }

namespace Grammar

def filling (g : Grammar) (word : Word) : Filling :=
  (coordinates word.length).foldl (Filling.step g.producers word)
    ⟨.blank word.length g.nonterminals, #[]⟩

/-- The filled table of a word. -/
def table (g : Grammar) (word : Word) : Table := (g.filling word).table

end Grammar

end Chomsky
