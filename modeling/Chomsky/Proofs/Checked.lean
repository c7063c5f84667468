import Chomsky.Recognition
import Mathlib.Data.List.Defs

/-!
# Checked queries

The steps of a query are partial: a number must not exceed 64 bits or fall below zero, two sets that
are joined must have one width, a position must be inside its set or list, and a cell inside the
triangle. Here every query is written once more with all these checks, step by step, and none of
them has an answer once a check fails.
-/

namespace Chomsky

/-! ## Numbers -/

/-- A number if it has at most 64 bits. -/
def fit? (n : Nat) : Option Nat := if n < UInt64.size then some n else none

def add? (m n : Nat) : Option Nat := fit? (m + n)

def mul? (m n : Nat) : Option Nat := fit? (m * n)

def sub? (m n : Nat) : Option Nat := if n ≤ m then some (m - n) else none

theorem add?_of_lt {m n : Nat} (h : m + n < UInt64.size) : add? m n = some (m + n) := if_pos h

theorem mul?_of_lt {m n : Nat} (h : m * n < UInt64.size) : mul? m n = some (m * n) := if_pos h

theorem sub?_of_le {m n : Nat} (h : n ≤ m) : sub? m n = some (m - n) := if_pos h

/-! ## Sets and producers -/

namespace Positions

/-- Adds a position below the width. -/
def insert? (s : Positions) (i : Nat) : Option Positions :=
  if i < s.width then some (s.insert i) else none

/-- Joins sets of one width. -/
def union? (s t : Positions) : Option Positions :=
  if s.width = t.width then some (s.union t) else none

end Positions

/-- Adds a position below the width to the set kept for `key`, which begins empty. -/
def noteProducer? {κ : Type} [DecidableEq κ] (width : Nat) (key : κ) (i : Nat) :
    List (κ × Positions) → Option (List (κ × Positions))
  | [] => do return [(key, ← (Positions.empty width).insert? i)]
  | (k, s) :: rest =>
    if k = key then do return (k, ← s.insert? i) :: rest
    else do return (k, s) :: (← noteProducer? width key i rest)

namespace Producers

/-- Enters one production; the parts of a pair must have positions. -/
def note? (g : Grammar) (p : Producers) : Nat × Alternative → Option Producers
  | (lhs, .letter t) => do return { p with byLetter := ← noteProducer? p.width t lhs p.byLetter }
  | (lhs, .pair b c) => do
    let i ← g.position? b
    let j ← g.position? c
    return { p with byPair := ← noteProducer? p.width (i, j) lhs p.byPair }

/-- Joins the producers of every pair, left members first, to those found so far. -/
def combine? (p : Producers) (left right into : Positions) : Option Positions :=
  (left.toList.product right.toList).foldlM (fun found (i, j) =>
    match p.ofPair? i j with
    | some producers => found.union? producers
    | none => some found) into

end Producers

def Grammar.producers? (g : Grammar) : Option Producers :=
  g.numberedRules.foldlM (Producers.note? g) ⟨g.nonterminals.length, [], []⟩

/-! ## Tables -/

namespace Table

def blank? (wordLength : Nat) (nonterminals : List Char) : Option Table := do
  let next ← add? wordLength 1
  let twice ← mul? wordLength next
  return ⟨wordLength, nonterminals, Array.replicate (twice / 2) (.empty nonterminals.length)⟩

def hasCell? (t : Table) (span offset : Nat) : Option Bool :=
  if span < t.wordLength then do return offset < (← sub? t.wordLength span) else some false

/-- Where a cell of the triangle lies. -/
def slot? (t : Table) (span offset : Nat) : Option Nat := do
  if ← t.hasCell? span offset then
    let full ← mul? span t.wordLength
    let missing ← mul? span (span - 1)
    let row ← sub? full (missing / 2)
    add? row offset
  else none

/-- The set in a cell of the triangle. -/
def bits? (t : Table) (span offset : Nat) : Option Positions := do
  let slot ← t.slot? span offset
  t.cells[slot]?

-- the triangle over two letters has no cell there
example : (blank 2 ['S']).bits? 1 1 = none := by decide

/-- Puts a set into a cell of the triangle. -/
def put? (t : Table) (span offset : Nat) (s : Positions) : Option Table := do
  let slot ← t.slot? span offset
  if slot < t.cells.size then return { t with cells := t.cells.setIfInBounds slot s } else none

def cell? (t : Table) (span offset : Nat) : Option (List Char) := do
  if ← t.hasCell? span offset then
    let s ← t.bits? span offset
    s.toList.mapM fun i => t.nonterminals[i]?
  else return []

def contains? (t : Table) (span offset : Nat) (c : Char) : Option Bool := do
  if ← t.hasCell? span offset then
    let s ← t.bits? span offset
    return (t.nonterminals.idxOf? c).any s.contains
  else return false

def derivesWord? (t : Table) (c : Char) : Option Bool :=
  if 0 < t.wordLength then do
    let span ← sub? t.wordLength 1
    t.contains? span 0 c
  else some false

def columnWidth? (t : Table) (offset : Nat) : Option Nat := do
  let spans ← sub? t.wordLength offset
  (List.range spans).foldlM (fun widest span => do
    return max widest (← t.cell? span offset).length) 0

def paddedCell? (t : Table) (widths : List Nat) (span offset : Nat) : Option (List Char) := do
  let width ← widths[offset]?
  return paddedCell width (← t.cell? span offset)

def row? (t : Table) (widths : List Nat) (span : Nat) : Option (List Char) := do
  let offsets ← sub? t.wordLength span
  let cells ← (List.range offsets).mapM (t.paddedCell? widths span)
  return cells.flatten ++ ['\n']

def text? (t : Table) : Option String := do
  let widths ← (List.range t.wordLength).mapM t.columnWidth?
  let rows ← (List.range t.wordLength).mapM (t.row? widths)
  return String.ofList rows.flatten

end Table

/-! ## Filling a table -/

def rowCoordinates? (n span : Nat) : Option (List (Nat × Nat)) := do
  let offsets ← sub? n span
  return (List.range offsets).map fun offset => (span, offset)

def coordinates? (n : Nat) : Option (List (Nat × Nat)) := do
  let rows ← (List.range n).mapM (rowCoordinates? n)
  return rows.flatten

namespace Producers

/-- Adds what one split gives to what was found so far. -/
def addSplit? (p : Producers) (t : Table) (span offset : Nat) (found : Positions) (split : Nat) :
    Option Positions := do
  let left ← t.bits? split offset
  let rest ← sub? (← sub? span split) 1
  let start ← add? (← add? offset split) 1
  let right ← t.bits? rest start
  p.combine? left right found

def atSplits? (p : Producers) (t : Table) (span offset : Nat) : Option Positions :=
  (List.range span).foldlM (p.addSplit? t span offset) (.empty p.width)

def atCell? (p : Producers) (word : Word) (t : Table) (span offset : Nat) : Option Positions :=
  if span = 0 then some (p.atLetter word offset) else p.atSplits? t span offset

end Producers

/-- Fills one cell and reads it again for the report. -/
def Filling.step? (p : Producers) (word : Word) (f : Filling) (place : Nat × Nat) :
    Option Filling := do
  let (span, offset) := place
  let table ← f.table.put? span offset (← p.atCell? word f.table span offset)
  return { table, log := f.log.push (.filled span offset (← table.cell? span offset)) }

namespace Grammar

def filling? (g : Grammar) (word : Word) : Option Filling := do
  let producers ← g.producers?
  let table ← Table.blank? word.length g.nonterminals
  let places ← coordinates? word.length
  places.foldlM (Filling.step? producers word) ⟨table, #[]⟩

def derivationTable? (g : Grammar) (word : Word) : Option (Except QueryError Table) :=
  match g.checkQuery word with
  | .error e => some (.error e)
  | .ok _ => do return .ok (← g.filling? word).table

def isDerived? (g : Grammar) (word : Word) : Option (Except QueryError Bool) :=
  match g.checkQuery word with
  | .error e => some (.error e)
  | .ok start => do return .ok (← (← g.filling? word).table.derivesWord? start)

def tableText? (g : Grammar) (word : Word) : Option (Except QueryError String) :=
  match g.checkQuery word with
  | .error e => some (.error e)
  | .ok _ => do return .ok (← (← g.filling? word).table.text?)

end Grammar

end Chomsky
