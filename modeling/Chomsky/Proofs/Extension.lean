import Chomsky.Proofs.Useless

/-!
# Growing grammars

Edits that do not clear a grammar extend it: whatever was declared or could be rewritten is still,
and in front (`Extends.of_run`). A derivation tree of the old grammar is one of the new, so all that
is said by trees only grows: cells list no fewer nonterminals (`Extends.mem_cell`), heights fall if
they change at all (`Extends.exists_height_le`), and words stay derived.
-/

namespace Chomsky

namespace Grammar

/-- Whether a grammar has all that another has, in the same order and before anything else. -/
structure Extends (g g' : Grammar) : Prop where
  terminals : g.terminals <+: g'.terminals
  nonterminals : g.nonterminals <+: g'.nonterminals
  alternatives : ∀ c, g.alternatives c <+: g'.alternatives c

variable {g g' g'' : Grammar} {c : Char} {change : Change} {edits : List Edit} {word : Word}
  {span offset n : Nat}

namespace Extends

theorem refl (g : Grammar) : g.Extends g :=
  ⟨List.prefix_refl _, List.prefix_refl _, fun _ => List.prefix_refl _⟩

theorem trans (h : g.Extends g') (h' : g'.Extends g'') : g.Extends g'' :=
  ⟨h.terminals.trans h'.terminals, h.nonterminals.trans h'.nonterminals,
    fun c => (h.alternatives c).trans (h'.alternatives c)⟩

/-! ## Edits -/

theorem commit (ha : g.Admits change) (hc : change ≠ .cleared) : g.Extends (g.commit change) where
  terminals := terminals_commit g hc ▸ List.prefix_append _ _
  nonterminals := nonterminals_commit g hc ▸ List.prefix_append _ _
  alternatives c := alternatives_commit ha hc c ▸ List.prefix_append _ _

theorem of_run (g : Grammar) (h : .clear ∉ edits) : g.Extends (g.run edits).1 := by
  induction g, edits using run_induction with
  | nil g => exact refl g
  | refused hc ih =>
    rw [run_cons_of_error hc]
    exact ih (List.not_mem_of_not_mem_cons h)
  | accepted hc ih =>
    have hclear := ne_cleared_of_check hc (List.ne_of_not_mem_cons h).symm
    rw [run_cons_of_ok hc]
    exact (commit (admits_of_check hc) hclear).trans (ih (List.not_mem_of_not_mem_cons h))

/-! ## Trees -/

theorem tree (h : g.Extends g') {t : Tree} (ht : t.Of g) : t.Of g' :=
  ht.mono fun c => (h.alternatives c).subset

theorem derives (h : g.Extends g') (hd : g.Derives c word) : g'.Derives c word := by
  obtain ⟨t, ht, hc, hw⟩ := hd
  exact ⟨t, h.tree ht, hc, hw⟩

theorem mem_cell (h : g.Extends g') (hg : g.Consistent) (hg' : g'.Consistent)
    (hc : c ∈ (g.table word).cell span offset) : c ∈ (g'.table word).cell span offset := by
  rw [hg.mem_cell_table_iff] at hc
  rw [hg'.mem_cell_table_iff]
  exact ⟨hc.1, h.derives hc.2⟩

/-- The lowest tree of the old grammar bounds the height in the new one. -/
theorem exists_height_le (h : g.Extends g') (hg : g.Consistent) (hg' : g'.Consistent)
    (hc : g.heights.of? c = some n) : ∃ n' ≤ n, g'.heights.of? c = some n' := by
  obtain ⟨t, ht, rfl, rfl⟩ := heights_realised hg.nonterminals_nodup c n hc
  exact heights_covers hg'.nonterminals_nodup t.height t (h.tree ht) le_rfl

end Extends

/-! ## Queries -/

theorem Consistent.isDerived_run (hg : g.Consistent) (h : .clear ∉ edits)
    (hs : (g.run edits).1.start = g.start) (hd : g.isDerived word = .ok true) :
    (g.run edits).1.isDerived word = .ok true := by
  obtain ⟨start, hq, hderives⟩ := isDerived_eq_ok_iff.1 hd
  obtain ⟨start', hq'⟩ := hg.checkQuery_run h ⟨start, hq⟩
  have hstart : start' = start := by
    have hnew := (checkQuery_eq_ok_iff.1 hq').2.2.1
    rw [hs, (checkQuery_eq_ok_iff.1 hq).2.2.1] at hnew
    exact (Option.some.inj hnew).symm
  refine isDerived_eq_ok_iff.2 ⟨start, hstart ▸ hq', ?_⟩
  rw [hg.derivesWord_table] at hderives
  exact (hg.run edits).derivesWord_table.2 ((Extends.of_run g h).derives hderives)

/-- Growing a grammar loses nothing. After any edits that do not clear it the nonterminals are where
they were. Every cell of every word's table lists what it listed before, and a table that could be
asked for still can be. A nonterminal with a height has one that is not larger. And a word that is
derived stays derived, unless the start symbol is another. -/
theorem run_monotone (hg : g.Reachable) (h : .clear ∉ edits) :
    let g' := (g.run edits).1
    g.nonterminals <+: g'.nonterminals
      ∧ (∀ word span offset c, c ∈ (g.table word).cell span offset →
        c ∈ (g'.table word).cell span offset)
      ∧ (∀ word t, g.derivationTable word = .ok t → ∃ t', g'.derivationTable word = .ok t'
        ∧ ∀ span offset c, c ∈ t.cell span offset → c ∈ t'.cell span offset)
      ∧ (∀ c n, g.heights.of? c = some n → ∃ n' ≤ n, g'.heights.of? c = some n')
      ∧ ∀ word, g'.start = g.start →
        g.isDerived word = .ok true → g'.isDerived word = .ok true := by
  intro g'
  have hold := hg.consistent
  have hnew : g'.Consistent := hold.run edits
  have hext : g.Extends g' := .of_run g h
  refine ⟨hext.nonterminals, fun _ _ _ _ => hext.mem_cell hold hnew, fun word t ht => ?_,
    fun _ _ => hext.exists_height_le hold hnew, fun _ => hold.isDerived_run h⟩
  obtain ⟨hq, rfl⟩ := derivationTable_eq_ok_iff.1 ht
  exact ⟨_, derivationTable_eq_ok_iff.2 ⟨hold.checkQuery_run h hq, rfl⟩,
    fun _ _ _ => hext.mem_cell hold hnew⟩

/-- Edits that make `U` productive and `S` lower; the second of two equal productions is refused. -/
def growingEdits : List Edit :=
  [.addNonterminal 'C', .addTerminal 'c', .addProduction 'U' "c", .addProduction 'S' "c",
    .addProduction 'S' "c", .addProduction 'C' "AU"]

theorem run_monotone_sample : sample.Reachable ∧ .clear ∉ growingEdits
    ∧ (sample.run growingEdits).1.start = sample.start
    ∧ sample.isDerived ['a', 'b', 'b'] = .ok true
    ∧ (sample.run growingEdits).1.isDerived ['a', 'b', 'b'] = .ok true
    ∧ sample.heights.of? 'S' = some 2
    ∧ ∃ n ≤ 2, (sample.run growingEdits).1.heights.of? 'S' = some n := by
  have hk : .clear ∉ growingEdits := by decide
  obtain ⟨-, -, -, hheights, hwords⟩ := run_monotone reachable_sample hk
  have hs : (sample.run growingEdits).1.start = sample.start := by decide +kernel
  have hword : sample.isDerived ['a', 'b', 'b'] = .ok true := by decide +kernel
  have hheight : sample.heights.of? 'S' = some 2 := by decide +kernel
  exact ⟨reachable_sample, hk, hs, hword, hwords _ hs hword, hheight, hheights _ _ hheight⟩

-- the height of `S` falls, and `U` gets one
example : ['S', 'U'].map sample.heights.of? = [some 2, none]
    ∧ ['S', 'U'].map (sample.run growingEdits).1.heights.of? = [some 1, some 1] := by
  decide +kernel

end Grammar

end Chomsky
