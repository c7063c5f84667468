import Chomsky.Proofs.Producers
import Chomsky.Proofs.Triangle

/-!
# Reading a table

The members of a cell are read in the order of declaration (`cell_sublist`). If the cell holds
exactly the nonterminals with some property, they are its members (`mem_cell_iff`). Asking about one
nonterminal looks at its place alone and finds the same (`contains_iff_mem_cell`).
-/

namespace Chomsky

namespace Positions

/-- The flags that are set pick out a part of any list beside them. -/
theorem filterMap_flags_sublist (names : List Char) : ∀ (flags : List Bool) (k : Nat),
    (((flags.zipIdx k).filterMap fun (flag, i) => if flag then some i else none).filterMap
      fun i => names[i]?).Sublist (names.drop k)
  | [], k => by simp
  | flag :: flags, k => by
    have ih := filterMap_flags_sublist names flags (k + 1)
    have hskip : (names.drop (k + 1)).Sublist (names.drop k) :=
      List.drop_sublist_drop_left names (Nat.le_succ k)
    rw [List.zipIdx_cons, List.filterMap_cons]
    cases flag
    · exact ih.trans hskip
    · simp only [if_true, List.filterMap_cons]
      rcases Nat.lt_or_ge k names.length with hk | hk
      · rw [List.getElem?_eq_getElem hk, List.drop_eq_getElem_cons hk]
        exact ih.cons_cons _
      · rw [List.getElem?_eq_none hk]
        exact ih.trans hskip

end Positions

namespace Table

theorem cell_sublist (t : Table) (span offset : Nat) :
    (t.cell span offset).Sublist t.nonterminals := by
  unfold cell
  split
  · exact Positions.filterMap_flags_sublist t.nonterminals _ 0
  · exact List.nil_sublist _

variable {g : Grammar} {t : Table} {span offset : Nat} {P : Char → Prop}

theorem mem_cell_iff (ht : t.Full) (hn : t.nonterminals = g.nonterminals)
    (hw : span + offset < t.wordLength) (hs : (t.get span offset).Holds g P) {c : Char} :
    c ∈ t.cell span offset ↔ c ∈ g.nonterminals ∧ P c := by
  simp only [cell, get?_eq_some_get ht hw, hn, List.mem_filterMap, Positions.mem_toList,
    hs.contains_iff]
  refine ⟨fun h => ?_, fun h => ?_⟩
  · obtain ⟨i, ⟨c', hc', hP⟩, hc⟩ := h
    cases hc.symm.trans hc'
    exact ⟨List.mem_of_getElem? hc, hP⟩
  · obtain ⟨i, hi⟩ := List.mem_iff_getElem?.1 h.1
    exact ⟨i, ⟨c, hi, h.2⟩, hi⟩

/-- Asking about one nonterminal finds what listing them finds, because all of them are different.
-/
theorem contains_iff_mem_cell (hn : t.nonterminals.Nodup) {c : Char} :
    t.contains span offset c = true ↔ c ∈ t.cell span offset := by
  have hpos : ∀ {i}, t.nonterminals.idxOf? c = some i ↔ t.nonterminals[i]? = some c :=
    idxOf?_eq_some_iff_getElem? hn
  unfold contains cell
  rcases t.get? span offset with _ | s
  · simp
  · simp only [List.mem_filterMap, Positions.mem_toList, ← hpos]
    rcases t.nonterminals.idxOf? c with _ | i <;> simp

theorem contains_iff (hg : g.nonterminals.Nodup) (ht : t.Full)
    (hn : t.nonterminals = g.nonterminals) (hw : span + offset < t.wordLength)
    (hs : (t.get span offset).Holds g P) {c : Char} :
    t.contains span offset c = true ↔ c ∈ g.nonterminals ∧ P c :=
  (contains_iff_mem_cell (hn ▸ hg)).trans (mem_cell_iff ht hn hw hs)

end Table

end Chomsky
