import Chomsky.Proofs.Layout
import Chomsky.Proofs.Recurrence

/-!
# The text determines the table

A table can be read back from its text, although nothing marks where a cell ends and a cell without
nonterminals is blank. There are as many lines as the word has letters. Each line has one field
fewer than the line before, so the lengths of the lines are the places where the columns begin
(`columnStart_text`), and what is cut out there is a cell and its blanks (`cell_text`). Since a
table is known from its cells, two tables with one text are equal (`text_eq_iff`).
-/

namespace Chomsky

/-! ## Reading a text -/

namespace Layout

/-- The lines of a text in which each line ends with a newline. -/
def lines (text : String) : List (List Char) := (text.toList.splitOn '\n').dropLast

def wordLength (text : String) : Nat := (lines text).length

/-- Where a column begins: as many characters in as the line is long that ends before it. Before the
first column no line ends. -/
def columnStart (text : String) (offset : Nat) : Nat :=
  ((lines text).getD (wordLength text - offset) []).length

/-- The last blank of a field does not count. -/
def columnWidth (text : String) (offset : Nat) : Nat :=
  columnStart text (offset + 1) - columnStart text offset - 1

/-- What stands before the blanks, from the beginning of a column to the beginning of the next. -/
def cell (text : String) (span offset : Nat) : List Char :=
  ((((lines text).getD span []).drop (columnStart text offset)).take
    (columnStart text (offset + 1) - columnStart text offset)).takeWhile (· ≠ ' ')

end Layout

/-- The table that a text shows. -/
def Table.ofText (nonterminals : List Char) (text : String) : Table :=
  .ofCells (Layout.wordLength text) nonterminals fun place => Layout.cell text place.1 place.2

/-! ## Reading the text of a table -/

namespace Layout

variable {t : Table}

theorem lines_text (h : t.Legible) : lines t.text = (List.range t.wordLength).map t.line := by
  rw [lines, h.splitOn_text, List.dropLast_concat]

theorem wordLength_text (h : t.Legible) : wordLength t.text = t.wordLength := by
  rw [wordLength, lines_text h, List.length_map, List.length_range]

/-- Behind the last line nothing is read, and the line of so large a span would be empty. -/
theorem getD_lines_text (h : t.Legible) (span : Nat) :
    (lines t.text).getD span [] = t.line span := by
  rw [lines_text h, List.getD_eq_getElem?_getD, List.getElem?_map]
  rcases Nat.lt_or_ge span t.wordLength with hs | hs
  · rw [List.getElem?_range hs]
    rfl
  · have hnone : t.wordLength - span = 0 := by omega
    rw [List.getElem?_eq_none (by simpa using hs), Table.line, hnone]
    rfl

theorem columnStart_text (h : t.Legible) (offset : Nat) :
    columnStart t.text offset = t.columnStart (min offset t.wordLength) := by
  rw [columnStart, getD_lines_text h, wordLength_text h, Table.length_line]
  congr 1
  omega

theorem columnStart_text_of_lt (h : t.Legible) {offset : Nat} (ho : offset < t.wordLength) :
    columnStart t.text offset = t.columnStart offset
      ∧ columnStart t.text (offset + 1) = t.columnStart offset + (t.columnWidth offset + 1) := by
  rw [columnStart_text h, columnStart_text h, min_eq_left ho.le,
    min_eq_left (Nat.succ_le_of_lt ho), Table.columnStart_succ]
  exact ⟨rfl, rfl⟩

theorem columnWidth_text (h : t.Legible) (offset : Nat) :
    columnWidth t.text offset = t.columnWidth offset := by
  rcases Nat.lt_or_ge offset t.wordLength with ho | ho
  · obtain ⟨hstart, hnext⟩ := columnStart_text_of_lt h ho
    rw [columnWidth, hstart, hnext]
    omega
  · have hspans : t.wordLength - offset = 0 := by omega
    rw [columnWidth, columnStart_text h, columnStart_text h, min_eq_right ho,
      min_eq_right (ho.trans (Nat.le_succ offset)), Table.columnWidth, hspans, Nat.sub_self]
    rfl

theorem takeWhile_field (h : t.Legible) (span offset : Nat) :
    (t.field span offset).takeWhile (· ≠ ' ') = t.cell span offset := by
  rw [Table.field, Nat.sub_add_comm (t.length_cell_le span offset), List.replicate_succ]
  exact takeWhile_append_cons (Table.not_mem_cell h.blank span offset)

theorem cell_text (h : t.Legible) (span offset : Nat) :
    cell t.text span offset = t.cell span offset := by
  rw [cell, getD_lines_text h]
  by_cases hw : span + offset < t.wordLength
  · obtain ⟨hstart, hnext⟩ := columnStart_text_of_lt h (show offset < t.wordLength by omega)
    rw [hstart, hnext, Nat.add_sub_cancel_left, Table.field_eq_slice hw, takeWhile_field h]
  · -- the line ends before the column begins
    have hend : (t.line span).length ≤ columnStart t.text offset := by
      rw [Table.length_line, columnStart_text h]
      exact t.columnStart_mono (by omega)
    rw [Table.cell_of_not_lt hw, List.drop_eq_nil_of_le hend, List.take_nil, List.takeWhile_nil]

end Layout

/-! ## Tables of words -/

namespace Grammar

variable {g g' : Grammar} {word word' : Word} {t t' : Table}

/-- A table is known from its cells. -/
theorem Consistent.table_eq_ofCells_cell (hg : g.Consistent) (word : Word) :
    g.table word = .ofCells word.length g.nonterminals fun place =>
      (g.table word).cell place.1 place.2 :=
  hg.table_eq_ofCells fun _ hw _ => hg.mem_cell_table_iff.trans (and_iff_right hw)

theorem Consistent.table_eq_iff (hg : g.Consistent) (hg' : g'.Consistent)
    (hn : g.nonterminals = g'.nonterminals) : g.table word = g'.table word' ↔
      (g.table word).wordLength = (g'.table word').wordLength
        ∧ ∀ span offset, (g.table word).cell span offset = (g'.table word').cell span offset := by
  refine ⟨fun h => by simp only [h, implies_true, and_self], fun ⟨hl, hcells⟩ => ?_⟩
  rw [hg.wordLength_table, hg'.wordLength_table] at hl
  rw [hg.table_eq_ofCells_cell, hg'.table_eq_ofCells_cell, hl, hn]
  simp only [hcells]

theorem Consistent.ofText_text (hg : g.Consistent) (word : Word) :
    Table.ofText g.nonterminals (g.table word).text = g.table word := by
  have h := hg.legible_table word
  rw [Table.ofText, Layout.wordLength_text h, hg.wordLength_table]
  simp only [Layout.cell_text h]
  exact (hg.table_eq_ofCells_cell word).symm

/-- Tables over the same nonterminals have the same text exactly if they are equal, which is to say
that their words are equally long and all cells have the same members. What tells them apart is read
off the text: the length of the word, the widths of the columns and every cell, and so the table. -/
theorem text_eq_iff (hg : g.Reachable) (hg' : g'.Reachable) (h : g.derivationTable word = .ok t)
    (h' : g'.derivationTable word' = .ok t') (hn : g.nonterminals = g'.nonterminals) :
    (t.text = t'.text ↔ t = t')
      ∧ (t = t' ↔ t.wordLength = t'.wordLength
        ∧ ∀ span offset, t.cell span offset = t'.cell span offset)
      ∧ Layout.wordLength t.text = word.length
      ∧ (∀ offset, Layout.columnWidth t.text offset = t.columnWidth offset)
      ∧ (∀ span offset, Layout.cell t.text span offset = t.cell span offset)
      ∧ Table.ofText g.nonterminals t.text = t := by
  obtain ⟨-, rfl⟩ := derivationTable_eq_ok_iff.1 h
  obtain ⟨-, rfl⟩ := derivationTable_eq_ok_iff.1 h'
  have hc := hg.consistent
  have hc' := hg'.consistent
  have hlegible := hc.legible_table word
  refine ⟨⟨fun htext => ?_, congrArg Table.text⟩, hc.table_eq_iff hc' hn, ?_,
    Layout.columnWidth_text hlegible, Layout.cell_text hlegible, hc.ofText_text word⟩
  · rw [← hc.ofText_text word, htext, hn, hc'.ofText_text word']
  · rw [Layout.wordLength_text hlegible, hc.wordLength_table]

/-- The sample with one more alternative from which no word is derived. -/
def sampleMore : Grammar := (empty.run (sampleEdits ++ [.addProduction 'U' "AU"])).1

/-- In the second line the third cell is empty, so three blanks stand before the fourth. -/
theorem text_eq_iff_sample : sample.Reachable ∧ sampleMore.Reachable ∧ sample ≠ sampleMore
    ∧ sample.nonterminals = sampleMore.nonterminals
    ∧ sample.derivationTable ['a', 'b', 'b', 'a', 'b'] =
      sampleMore.derivationTable ['a', 'b', 'b', 'a', 'b']
    ∧ (∀ offset, Layout.cell "A B B A B \nS B   S \nS     \n    \nS \n" 1 offset =
      (sample.table ['a', 'b', 'b', 'a', 'b']).cell 1 offset)
    ∧ Layout.wordLength "A B B A B \nS B   S \nS     \n    \nS \n" = 5 := by
  have hr : sampleMore.Reachable := ⟨_, rfl⟩
  have hne : sample ≠ sampleMore := by decide +kernel
  have hn : sample.nonterminals = sampleMore.nonterminals := by decide +kernel
  have h : sample.derivationTable ['a', 'b', 'b', 'a', 'b'] =
      .ok (sample.table ['a', 'b', 'b', 'a', 'b']) := by decide +kernel
  have h' : sampleMore.derivationTable ['a', 'b', 'b', 'a', 'b'] =
      .ok (sampleMore.table ['a', 'b', 'b', 'a', 'b']) := by decide +kernel
  have htext : (sample.table ['a', 'b', 'b', 'a', 'b']).text =
      "A B B A B \nS B   S \nS     \n    \nS \n" := by decide +kernel
  have htext' : (sampleMore.table ['a', 'b', 'b', 'a', 'b']).text =
      "A B B A B \nS B   S \nS     \n    \nS \n" := by decide +kernel
  obtain ⟨hiff, -, hlength, -, hcell, -⟩ := text_eq_iff reachable_sample hr h h' hn
  have htable := hiff.1 (htext.trans htext'.symm)
  rw [htext] at hlength hcell
  exact ⟨reachable_sample, hr, hne, hn, by rw [h, h', htable], hcell 1, hlength⟩

end Grammar

end Chomsky
