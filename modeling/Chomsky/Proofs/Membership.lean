import Chomsky.Proofs.Cells
import Chomsky.Proofs.Reading
import Chomsky.Recognition

/-!
# Membership

The table of a word is exact: a cell lists the nonterminals that derive its stretch, and no others
(`cell_exact`). So a word is accepted exactly if the start symbol can be rewritten to it
(`isDerived_iff_rewrites`).
-/

namespace Chomsky

namespace Grammar

open Relation

variable {g : Grammar} {word : Word}

/-! ## Asking about a word -/

theorem not_lacking_iff : ¬ (g.terminals.isEmpty || !g.hasProductions) = true ↔
    g.terminals ≠ [] ∧ g.hasProductions = true := by
  cases g.hasProductions <;> simp

theorem checkQuery_eq_ok_iff {start : Char} : g.checkQuery word = .ok start ↔
    g.terminals ≠ [] ∧ g.hasProductions = true ∧ g.start = some start
      ∧ ∀ c ∈ word, c ∈ g.terminals := by
  have hf : word.find? (· ∉ g.terminals) = none ↔ ∀ c ∈ word, c ∈ g.terminals := by
    simp
  unfold checkQuery
  rw [← and_assoc, ← not_lacking_iff, ← hf]
  split_ifs with he
  · exact iff_of_false (by simp) fun h => h.1 he
  · rw [and_iff_right he]
    cases hs : g.start with
    | none => simp
    | some s => cases hw : word.find? (· ∉ g.terminals) <;> simp

theorem isDerived_eq (g : Grammar) (word : Word) :
    g.isDerived word = (g.checkQuery word).map (g.table word).derivesWord := by
  unfold isDerived judge
  cases g.checkQuery word <;> rfl

theorem isDerived_eq_ok_iff {derived : Bool} : g.isDerived word = .ok derived ↔
    ∃ start, g.checkQuery word = .ok start ∧ (g.table word).derivesWord start = derived := by
  rw [isDerived_eq]
  cases g.checkQuery word <;> simp [Except.map]

theorem derivationTable_eq (g : Grammar) (word : Word) :
    g.derivationTable word = (g.checkQuery word).map fun _ => g.table word := by
  unfold derivationTable tabulate
  cases g.checkQuery word <;> rfl

theorem derivationTable_eq_ok_iff {t : Table} : g.derivationTable word = .ok t ↔
    (∃ start, g.checkQuery word = .ok start) ∧ g.table word = t := by
  rw [derivationTable_eq]
  cases g.checkQuery word <;> simp [Except.map]

theorem checkWord_of_ok {start : Char} (h : g.checkQuery word = .ok start) : g.checkWord word =
    .ok ⟨((g.table word).derivesWord start, g.table word), (g.filling word).log.toList⟩ := by
  have hs := (checkQuery_eq_ok_iff.1 h).2.2.1
  simp only [checkWord, tabulate, h, hs]
  rfl

theorem checkWord_of_error {e : QueryError} (h : g.checkQuery word = .error e) :
    g.checkWord word = .error e := by
  simp only [checkWord, tabulate, h]
  rfl

/-! ## The whole word -/

theorem stretch_whole (h : word ≠ []) : stretch word (word.length - 1) 0 = word := by
  have := List.length_pos_iff.2 h
  rw [stretch, List.drop_zero, Nat.sub_add_cancel this, List.take_length]

theorem Derives.mem_nonterminals {c : Char} (h : g.Derives c word) : c ∈ g.nonterminals := by
  obtain ⟨t, ht, rfl, -⟩ := h
  exact mem_nonterminals_of_mem_alternatives ht.alternative_mem

theorem Consistent.derivesWord_table (hg : g.Consistent) {c : Char} :
    (g.table word).derivesWord c = true ↔ g.Derives c word := by
  obtain ⟨hl, hn, hf, -⟩ := hg.filling_inv word
  rw [Table.derivesWord, Bool.and_eq_true, decide_eq_true_eq]
  rw [show (g.table word).wordLength = word.length from hl]
  by_cases hw : word = []
  · subst hw
    exact iff_of_false (by simp) fun h => h.ne_nil rfl
  · have hlen := List.length_pos_iff.2 hw
    have hin : word.length - 1 + 0 < word.length := by omega
    have hc := Table.contains_iff hg.nonterminals_nodup hf hn (hl ▸ hin) (hg.table_final hin)
      (c := c)
    simp only [stretch_whole hw] at hc
    refine (and_iff_right hlen).trans (hc.trans ?_)
    exact and_iff_right_of_imp Derives.mem_nonterminals

theorem Consistent.mem_cell_table_iff (hg : g.Consistent) {span offset : Nat} {c : Char} :
    c ∈ (g.table word).cell span offset ↔
      span + offset < word.length ∧ g.Derives c (stretch word span offset) := by
  obtain ⟨hl, hn, hf, -⟩ := hg.filling_inv word
  by_cases hw : span + offset < word.length
  · have hmem := Table.mem_cell_iff hf hn (hl ▸ hw) (hg.table_final hw) (c := c)
    rw [and_iff_right hw]
    exact hmem.trans (and_iff_right_of_imp Derives.mem_nonterminals)
  · have hnone : (g.table word).get? span offset = none := Table.get?_of_not_lt (hl ▸ hw)
    simp [Table.cell, hnone, hw]

/-- A cell lists, in the order of declaration and each once, the nonterminals with a derivation tree
whose leaves are the letters of the cell. -/
theorem cell_exact (hg : g.Reachable) {t : Table} (h : g.derivationTable word = .ok t)
    {span offset : Nat} (hw : offset + span < word.length) :
    (t.cell span offset).Sublist g.nonterminals ∧ (t.cell span offset).Nodup
      ∧ ∀ c, c ∈ t.cell span offset ↔ c ∈ g.nonterminals ∧ ∃ tree : Tree, tree.Of g
        ∧ tree.symbol = c ∧ tree.yield = (word.drop offset).take (span + 1) := by
  obtain ⟨-, rfl⟩ := derivationTable_eq_ok_iff.1 h
  have hc := hg.consistent
  obtain ⟨hl, hn, hf, -⟩ := hc.filling_inv word
  have hin : span + offset < word.length := by omega
  have hsub := (g.table word).cell_sublist span offset
  rw [show (g.table word).nonterminals = g.nonterminals from hn] at hsub
  exact ⟨hsub, hsub.nodup hc.nonterminals_nodup,
    fun c => Table.mem_cell_iff hf hn (hl ▸ hin) (hc.table_final hin)⟩

theorem cell_exact_sample : sample.Reachable
    ∧ sample.derivationTable ['a', 'b', 'b', 'a', 'b'] =
      .ok (sample.table ['a', 'b', 'b', 'a', 'b'])
    ∧ 1 + 1 < ['a', 'b', 'b', 'a', 'b'].length
    ∧ 'B' ∈ (sample.table ['a', 'b', 'b', 'a', 'b']).cell 1 1
    ∧ ∃ tree : Tree, tree.Of sample ∧ tree.symbol = 'B' ∧ tree.yield = ['b', 'b'] := by
  have h : sample.derivationTable ['a', 'b', 'b', 'a', 'b'] =
      .ok (sample.table ['a', 'b', 'b', 'a', 'b']) := by decide +kernel
  have hm : 'B' ∈ (sample.table ['a', 'b', 'b', 'a', 'b']).cell 1 1 := by decide +kernel
  have hw : 1 + 1 < ['a', 'b', 'b', 'a', 'b'].length := by decide
  exact ⟨reachable_sample, h, hw, hm, (((cell_exact reachable_sample h hw).2.2 'B').1 hm).2⟩

/-- The answer about a word is yes exactly if the start symbol can be rewritten to it, replacing
nonterminals anywhere and in any order; so it is never yes for the empty word. -/
theorem isDerived_iff_rewrites (hg : g.Reachable) {derived : Bool}
    (h : g.isDerived word = .ok derived) :
    ∃ start, g.start = some start
      ∧ (derived = true ↔ ReflTransGen g.Step [.nonterminal start] word.form)
      ∧ (word = [] → derived = false) := by
  obtain ⟨start, hs, rfl⟩ := isDerived_eq_ok_iff.1 h
  refine ⟨start, (checkQuery_eq_ok_iff.1 hs).2.2.1, ?_, fun hw => ?_⟩
  · rw [rewrites_iff_derives, hg.consistent.derivesWord_table]
  · rw [Bool.eq_false_iff, Ne, hg.consistent.derivesWord_table]
    exact fun hd => hd.ne_nil hw

theorem isDerived_sample : sample.Reachable
    ∧ sample.isDerived ['a', 'b', 'b', 'a', 'b'] = .ok true
    ∧ ReflTransGen sample.Step [.nonterminal 'S'] (Word.form ['a', 'b', 'b', 'a', 'b']) := by
  have h : sample.isDerived ['a', 'b', 'b', 'a', 'b'] = .ok true := by decide +kernel
  have hs : sample.start = some 'S' := by decide +kernel
  obtain ⟨start, hstart, hiff, -⟩ := isDerived_iff_rewrites reachable_sample h
  cases hstart.symm.trans hs
  exact ⟨reachable_sample, h, hiff.1 rfl⟩

end Grammar

end Chomsky
