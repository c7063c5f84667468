import Chomsky.Table.Basic

/-!
# The layout of a table

A table is written one row to a line, the single letters first. The cells of one offset stand below
each other: each is filled up to the widest cell of its column, and one more blank follows it.
-/

namespace Chomsky.Table

/-- The size of the largest cell over all spans at an offset. -/
def columnWidth (t : Table) (offset : Nat) : Nat :=
  (List.range (t.wordLength - offset)).foldl (fun widest span =>
    max widest (t.cell span offset).length) 0

/-- A cell filled up to its column's width, and one blank. -/
def paddedCell (width : Nat) (members : List Char) : List Char :=
  members ++ List.replicate (width - members.length) ' ' ++ [' ']

/-- The line of a span, given the widths of the columns. -/
def row (t : Table) (widths : List Nat) (span : Nat) : List Char :=
  ((List.range (t.wordLength - span)).flatMap fun offset =>
    paddedCell (widths.getD offset 0) (t.cell span offset)) ++ ['\n']

def text (t : Table) : String :=
  let widths := (List.range t.wordLength).map t.columnWidth
  String.ofList ((List.range t.wordLength).flatMap (t.row widths))

instance : ToString Table := ⟨Table.text⟩

end Chomsky.Table
