import Chomsky.Proofs.Delimiters
import Chomsky.Proofs.Heights
import Chomsky.Proofs.Membership
import Mathlib.Algebra.BigOperators.Group.List.Basic
import Mathlib.Algebra.GroupWithZero.Nat

/-!
# Lines and columns

The text of a table falls into one line for each span (`Legible.splitOn_text`), and a line into one
field for each cell. The width of a column is the size of its largest cell
(`isGreatest_columnWidth`), so no field is too small for its cell and all fields of a column are
equally long. Hence a column begins at the same place in every line that has it, and the field of a
cell is what stands there (`field_eq_slice`).
-/

namespace Chomsky

section Slices

variable {α : Type} {f : Nat → List α} {width : Nat → Nat}

theorem length_flatMap_range (hw : ∀ i, (f i).length = width i) (n : Nat) :
    ((List.range n).flatMap f).length = ((List.range n).map width).sum := by
  simp only [List.length_flatMap, hw]

/-- Of pieces that lie one behind the other, each is found behind the lengths of those before it. -/
theorem take_drop_flatMap_range (hw : ∀ i, (f i).length = width i) {k n : Nat} (hk : k < n) :
    (((List.range n).flatMap f).drop ((List.range k).map width).sum).take (width k) = f k := by
  obtain ⟨m, rfl⟩ : ∃ m, n = k + (m + 1) := ⟨n - k - 1, by omega⟩
  rw [List.range_add, List.range_succ_eq_map, List.flatMap_append,
    List.drop_left' (length_flatMap_range hw k), List.map_cons, List.flatMap_cons, Nat.add_zero,
    List.take_left' (hw k)]

end Slices

namespace Table

/-- The place of a cell in its line: its nonterminals, and blanks up to one more than its column is
wide. -/
def field (t : Table) (span offset : Nat) : List Char :=
  t.cell span offset
    ++ List.replicate (t.columnWidth offset + 1 - (t.cell span offset).length) ' '

/-- The fields of a span one behind the other. -/
def line (t : Table) (span : Nat) : List Char :=
  (List.range (t.wordLength - span)).flatMap (t.field span)

/-- How many characters the fields of the columns before this one take. -/
def columnStart (t : Table) (offset : Nat) : Nat :=
  ((List.range offset).map fun k => t.columnWidth k + 1).sum

variable {t : Table} {span offset : Nat}

/-! ## The width of a column -/

theorem length_cell_le (t : Table) (span offset : Nat) :
    (t.cell span offset).length ≤ t.columnWidth offset := by
  by_cases h : span + offset < t.wordLength
  · exact (isGreatest_foldl_max (fun span => (t.cell span offset).length) _).2
      (.inr ⟨span, List.mem_range.2 (by omega), rfl⟩)
  · rw [cell_of_not_lt h]
    exact Nat.zero_le _

theorem isGreatest_columnWidth (h : offset < t.wordLength) :
    IsGreatest {n | ∃ span, span + offset < t.wordLength ∧ (t.cell span offset).length = n}
      (t.columnWidth offset) := by
  refine ⟨?_, fun n ⟨span, _, hn⟩ => hn ▸ t.length_cell_le span offset⟩
  rcases (isGreatest_foldl_max (fun span => (t.cell span offset).length)
    (List.range (t.wordLength - offset))).1 with hzero | ⟨span, hspan, hn⟩
  · -- a column without letters is as wide as each of its cells
    have hwidth : t.columnWidth offset = 0 := hzero
    have hle := t.length_cell_le 0 offset
    exact ⟨0, by omega, by omega⟩
  · rw [List.mem_range] at hspan
    exact ⟨span, by omega, hn⟩

/-! ## Fields and lines -/

theorem length_field (t : Table) (span offset : Nat) :
    (t.field span offset).length = t.columnWidth offset + 1 := by
  have := t.length_cell_le span offset
  simp only [field, List.length_append, List.length_replicate]
  omega

theorem paddedCell_columnWidth (t : Table) (span offset : Nat) :
    paddedCell (t.columnWidth offset) (t.cell span offset) = t.field span offset := by
  rw [field, Nat.sub_add_comm (t.length_cell_le span offset), List.replicate_succ',
    ← List.append_assoc]
  rfl

theorem length_line (t : Table) (span : Nat) :
    (t.line span).length = t.columnStart (t.wordLength - span) :=
  length_flatMap_range (t.length_field span) _

theorem columnStart_succ (t : Table) (offset : Nat) :
    t.columnStart (offset + 1) = t.columnStart offset + (t.columnWidth offset + 1) :=
  List.sum_range_succ _ _

theorem columnStart_mono (t : Table) : Monotone t.columnStart :=
  monotone_nat_of_le_succ fun offset => by
    rw [columnStart_succ]
    exact Nat.le_add_right _ _

/-- The field of a cell stands where its column begins, and is as long as the column is wide and one
more. -/
theorem field_eq_slice (h : span + offset < t.wordLength) :
    ((t.line span).drop (t.columnStart offset)).take (t.columnWidth offset + 1) =
      t.field span offset :=
  take_drop_flatMap_range (t.length_field span) (by omega)

/-! ## The text -/

theorem toList_text (t : Table) :
    t.text.toList = ((List.range t.wordLength).map t.line).flatMap (· ++ ['\n']) := by
  rw [text, String.toList_ofList, List.flatMap_map]
  refine List.flatMap_congr fun span hspan => ?_
  rw [row, line]
  congr 1
  refine List.flatMap_congr fun offset hoffset => ?_
  rw [List.mem_range] at hspan hoffset
  have hwidth : ((List.range t.wordLength).map t.columnWidth)[offset]? =
      some (t.columnWidth offset) := by
    rw [List.getElem?_map, List.getElem?_range (by omega)]
    rfl
  rw [List.getD_eq_getElem?_getD, hwidth, Option.getD_some, paddedCell_columnWidth]

/-- Whether no nonterminal looks like the end of a line or of a cell. -/
structure Legible (t : Table) : Prop where
  newline : '\n' ∉ t.nonterminals
  blank : ' ' ∉ t.nonterminals

theorem not_mem_cell {x : Char} (h : x ∉ t.nonterminals) (span offset : Nat) :
    x ∉ t.cell span offset :=
  fun hm => h ((t.cell_sublist span offset).subset hm)

theorem Legible.newline_not_mem_line (h : t.Legible) (span : Nat) : '\n' ∉ t.line span := by
  simp [line, field, not_mem_cell h.newline]

/-- Between the newlines of a text stand its lines, and nothing stands behind the last. -/
theorem Legible.splitOn_text (h : t.Legible) :
    t.text.toList.splitOn '\n' = (List.range t.wordLength).map t.line ++ [[]] := by
  rw [toList_text, splitOn_lines]
  rw [List.forall_mem_map]
  exact fun span _ => h.newline_not_mem_line span

end Table

namespace Grammar

variable {g : Grammar} {word : Word}

theorem Consistent.legible_table (hg : g.Consistent) (word : Word) : (g.table word).Legible where
  newline := by
    rw [hg.nonterminals_table]
    exact hg.delimiter_not_mem_nonterminals (by decide)
  blank := by
    rw [hg.nonterminals_table]
    exact fun hm => hg.symbol_of_mem_nonterminals hm (ofChar?_of_isBlank (by decide))

/-- The text of a table is one line for each span, each ended by a newline. The line of a span has
the fields of its cells and nothing else: each begins where its column begins in every line and
holds the nonterminals of the cell in the order of declaration, all of them, with at least one blank
behind them. No column could do with less, for the largest of its cells leaves no more than that
blank. -/
theorem text_layout (hg : g.Reachable) {t : Table} (h : g.derivationTable word = .ok t) :
    t.text.toList.splitOn '\n' = (List.range word.length).map t.line ++ [[]]
      ∧ (∀ span, (t.line span).length = t.columnStart (word.length - span))
      ∧ (∀ span offset, span + offset < word.length →
        ((t.line span).drop (t.columnStart offset)).take (t.columnWidth offset + 1) =
            t.cell span offset
              ++ List.replicate (t.columnWidth offset + 1 - (t.cell span offset).length) ' '
          ∧ (t.cell span offset).length ≤ t.columnWidth offset
          ∧ (t.cell span offset).Sublist g.nonterminals)
      ∧ ∀ offset < word.length, ∃ span, span + offset < word.length
        ∧ (t.cell span offset).length = t.columnWidth offset := by
  obtain ⟨-, rfl⟩ := derivationTable_eq_ok_iff.1 h
  have hc := hg.consistent
  have hsub := (g.table word).cell_sublist
  rw [← hc.wordLength_table word, ← hc.nonterminals_table word]
  refine ⟨(hc.legible_table word).splitOn_text, Table.length_line _, fun span offset hw => ?_,
    fun offset ho => ?_⟩
  · exact ⟨Table.field_eq_slice hw, Table.length_cell_le _ span offset, hsub span offset⟩
  · exact (Table.isGreatest_columnWidth ho).1

/-- The sample with more that derives a `b`. -/
def sampleWide : Grammar :=
  (empty.run (sampleEdits ++ [.addProduction 'A' "b", .addNonterminal 'Ö',
    .addProduction 'Ö' "b"])).1

theorem reachable_sampleWide : sampleWide.Reachable := ⟨_, rfl⟩

/-- The second line is `S SB      S `. -/
theorem text_layout_sample : sampleWide.Reachable
    ∧ sampleWide.derivationTable ['a', 'b', 'b', 'a', 'b'] =
      .ok (sampleWide.table ['a', 'b', 'b', 'a', 'b'])
    ∧ 1 + 1 < ['a', 'b', 'b', 'a', 'b'].length
    ∧ (((sampleWide.table ['a', 'b', 'b', 'a', 'b']).line 1).drop 2).take 4 =
      ['S', 'B', ' ', ' '] := by
  have h : sampleWide.derivationTable ['a', 'b', 'b', 'a', 'b'] =
      .ok (sampleWide.table ['a', 'b', 'b', 'a', 'b']) := by decide +kernel
  have hstart : (sampleWide.table ['a', 'b', 'b', 'a', 'b']).columnStart 1 = 2 := by
    decide +kernel
  have hwidth : (sampleWide.table ['a', 'b', 'b', 'a', 'b']).columnWidth 1 = 3 := by
    decide +kernel
  have hcell : (sampleWide.table ['a', 'b', 'b', 'a', 'b']).cell 1 1 = ['S', 'B'] := by
    decide +kernel
  have hw : 1 + 1 < ['a', 'b', 'b', 'a', 'b'].length := by decide
  have hslice := ((text_layout reachable_sampleWide h).2.2.1 1 1 hw).1
  rw [hstart, hwidth, hcell] at hslice
  exact ⟨reachable_sampleWide, h, hw, hslice⟩

end Grammar

end Chomsky
