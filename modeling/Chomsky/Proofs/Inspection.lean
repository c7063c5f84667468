import Chomsky.Proofs.Safety
import Chomsky.Proofs.TableText

/-!
# Looking into a table

A table answers questions about any place, and the answers agree. A cell is there exactly if span
and offset together stay below the length of the word, which is found out without adding them
(`hasCell?_eq`). Where there is none, nothing else is looked at (`cell?_of_not_lt`,
`contains?_of_not_lt`). What is listed for a cell is what is found there one by one, and equal lists
make equal tables (`readings_agree`).
-/

namespace Chomsky

namespace Table

variable {t t' : Table} {span offset : Nat}

theorem derivesWord_iff_mem_cell (hn : t.nonterminals.Nodup) {c : Char} :
    t.derivesWord c = true ↔ 0 < t.wordLength ∧ c ∈ t.cell (t.wordLength - 1) 0 := by
  rw [derivesWord, Bool.and_eq_true, decide_eq_true_eq, contains_iff_mem_cell hn]

/-- Cells agree everywhere once they agree inside the triangle. -/
theorem cells_eq_iff (hl : t.wordLength = t'.wordLength) :
    (∀ span offset, t.cell span offset = t'.cell span offset) ↔
      ∀ span offset, span + offset < t.wordLength → t.cell span offset = t'.cell span offset := by
  refine ⟨fun h span offset _ => h span offset, fun h span offset => ?_⟩
  by_cases hin : span + offset < t.wordLength
  · exact h span offset hin
  · rw [cell_of_not_lt hin, cell_of_not_lt (hl ▸ hin)]

end Table

namespace Grammar

variable {g g' : Grammar} {word word' : Word} {t t' : Table}

theorem Consistent.table_eq_iff_cells (hg : g.Consistent) (hg' : g'.Consistent) :
    g.table word = g'.table word' ↔ (g.table word).wordLength = (g'.table word').wordLength
      ∧ (g.table word).nonterminals = (g'.table word').nonterminals
      ∧ ∀ span offset, (g.table word).cell span offset = (g'.table word').cell span offset := by
  refine ⟨fun h => by simp only [h, implies_true, and_self], fun ⟨hl, hn, hcells⟩ => ?_⟩
  rw [hg.nonterminals_table, hg'.nonterminals_table] at hn
  exact (hg.table_eq_iff hg' hn).2 ⟨hl, hcells⟩

/-- The questions to a table agree at every place. There is a cell exactly if span and offset add up
to less than the length of the word, and the test for it never takes more from a number than it is.
A nonterminal is found in a cell exactly if it is listed there, and it derives the word exactly if
the word is not empty and the nonterminal is listed for all of it. Where there is no cell nothing is
listed and nothing is found, and no slot is asked for. Two tables are equal exactly if their words
are equally long, their nonterminals are the same and all cells list the same; it is enough to
compare the cells inside the triangle. -/
theorem readings_agree (hg : g.Reachable) (h : g.derivationTable word = .ok t) :
    (∀ span offset, t.hasCell? span offset = some (t.hasCell span offset)
        ∧ (t.hasCell span offset = true ↔ span + offset < t.wordLength))
      ∧ (∀ span offset c, t.contains span offset c = true ↔ c ∈ t.cell span offset)
      ∧ (∀ span offset, ¬ span + offset < t.wordLength →
        t.cell? span offset = some [] ∧ t.cell span offset = []
          ∧ ∀ c, t.contains? span offset c = some false ∧ t.contains span offset c = false)
      ∧ (∀ c, t.derivesWord c = true ↔ 0 < t.wordLength ∧ c ∈ t.cell (t.wordLength - 1) 0)
      ∧ ∀ (g' : Grammar) (word' : Word) (t' : Table), g'.Reachable →
        g'.derivationTable word' = .ok t' →
          (t = t' ↔ t.wordLength = t'.wordLength ∧ t.nonterminals = t'.nonterminals
            ∧ ∀ span offset, t.cell span offset = t'.cell span offset)
          ∧ (t = t' ↔ t.wordLength = t'.wordLength ∧ t.nonterminals = t'.nonterminals
            ∧ ∀ span offset, span + offset < t.wordLength →
              t.cell span offset = t'.cell span offset) := by
  obtain ⟨-, rfl⟩ := derivationTable_eq_ok_iff.1 h
  have hc := hg.consistent
  have hn : (g.table word).nonterminals.Nodup := by
    rw [hc.nonterminals_table]
    exact hc.nonterminals_nodup
  refine ⟨fun span offset => ⟨Table.hasCell?_eq _ span offset, Table.hasCell_iff⟩,
    fun _ _ _ => Table.contains_iff_mem_cell hn, fun span offset hout => ?_,
    fun _ => Table.derivesWord_iff_mem_cell hn, fun g' word' t' hg' h' => ?_⟩
  · exact ⟨Table.cell?_of_not_lt hout, Table.cell_of_not_lt hout, fun c =>
      ⟨Table.contains?_of_not_lt hout c, Table.contains_of_not_lt hout c⟩⟩
  · obtain ⟨-, rfl⟩ := derivationTable_eq_ok_iff.1 h'
    have hiff : g.table word = g'.table word' ↔ _ := hc.table_eq_iff_cells hg'.consistent
    exact ⟨hiff, hiff.trans (and_congr_right fun hl => and_congr_right' (Table.cells_eq_iff hl))⟩

/-- The words differ in their last letters and so do the cells there, while no table has a cell at
the largest 64-bit numbers. -/
theorem readings_agree_sample : sample.Reachable
    ∧ sample.derivationTable ['a', 'b', 'b'] = .ok (sample.table ['a', 'b', 'b'])
    ∧ sample.derivationTable ['a', 'b', 'a'] = .ok (sample.table ['a', 'b', 'a'])
    ∧ 'S' ∈ (sample.table ['a', 'b', 'b']).cell 1 0
    ∧ (sample.table ['a', 'b', 'b']).contains 1 0 'S' = true
    ∧ (sample.table ['a', 'b', 'b']).cell? (2 ^ 64 - 1) (2 ^ 64 - 1) = some []
    ∧ sample.table ['a', 'b', 'b'] ≠ sample.table ['a', 'b', 'a'] := by
  have h : sample.derivationTable ['a', 'b', 'b'] = .ok (sample.table ['a', 'b', 'b']) := by
    decide +kernel
  have h' : sample.derivationTable ['a', 'b', 'a'] = .ok (sample.table ['a', 'b', 'a']) := by
    decide +kernel
  have hm : 'S' ∈ (sample.table ['a', 'b', 'b']).cell 1 0 := by decide +kernel
  have hout : ¬ 2 ^ 64 - 1 + (2 ^ 64 - 1) < (sample.table ['a', 'b', 'b']).wordLength := by
    decide +kernel
  have hlast :
      (sample.table ['a', 'b', 'b']).cell 0 2 ≠ (sample.table ['a', 'b', 'a']).cell 0 2 := by
    decide +kernel
  obtain ⟨-, hcontains, houtside, -, hequal⟩ := readings_agree reachable_sample h
  have hiff := (hequal sample ['a', 'b', 'a'] _ reachable_sample h').1
  exact ⟨reachable_sample, h, h', hm, (hcontains 1 0 'S').2 hm, (houtside _ _ hout).1,
    fun he => hlast ((hiff.1 he).2.2 0 2)⟩

end Grammar

end Chomsky
