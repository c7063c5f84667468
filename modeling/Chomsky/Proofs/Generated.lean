import Chomsky.Proofs.DepthLimit
import Chomsky.Proofs.Membership

/-!
# Generated words

What is generated is reported with the nonterminal it comes from (`yields_announceFrom_iff`) and is
derived (`generate_sound`). The depth limit decides what can be generated: exactly the words of the
trees that take lowest alternatives from the limit on (`generateFrom_range`). A limit below all
nodes restricts nothing, so every word of the language is generated at some limit from some source.
-/

namespace Chomsky

namespace Grammar

open Generation

variable {g : Grammar} {maxDepth : Nat} {c : Char} {word : Word} {s s' : Source} {t : Tree}

/-! ## Runs from a nonterminal -/

theorem yields_growFrom_iff (hn : g.nonterminals.Nodup) :
    Yields (g.growFrom c maxDepth) s t s' ↔ g.Grows g.heights maxDepth c s t s' := by
  unfold growFrom
  rw [yields_growWithin_iff, and_iff_left_iff_imp]
  intro h
  -- below the limit a grown tree is as low as can be, so the levels do not run out
  have hlow : g.LowFrom maxDepth 0 t := h.lowFrom hn rfl
  have := height_le hn hlow
  omega

theorem yields_generateFrom_iff (hn : g.nonterminals.Nodup) :
    Yields (g.generateFrom c maxDepth) s word s' ↔
      ∃ t, g.Grows g.heights maxDepth c s t s' ∧ t.yield = word := by
  simp only [generateFrom_eq, yields_map, yields_growFrom_iff hn]

theorem yields_grow_iff : Yields (g.grow maxDepth) s t s' ↔
    g.terminals ≠ [] ∧ g.hasProductions = true
      ∧ ∃ start, g.start = some start ∧ Yields (g.growFrom start maxDepth) s t s' := by
  unfold grow
  rw [← and_assoc, ← not_lacking_iff]
  split_ifs with he
  · exact iff_of_false yields_throw fun h => h.1 he
  · rw [and_iff_right he]
    cases g.start <;> simp

theorem yields_map_grow_iff {α : Type} {f : Tree → α} {a : α} :
    Yields (f <$> g.grow maxDepth) s a s' ↔ g.terminals ≠ [] ∧ g.hasProductions = true
      ∧ ∃ start, g.start = some start ∧ Yields (f <$> g.growFrom start maxDepth) s a s' := by
  simp only [yields_map, yields_grow_iff]
  refine ⟨fun h => ?_, fun h => ?_⟩
  · obtain ⟨t, ⟨ht, hp, start, hs, hy⟩, hw⟩ := h
    exact ⟨ht, hp, start, hs, t, hy, hw⟩
  · obtain ⟨ht, hp, start, hs, t, hy, hw⟩ := h
    exact ⟨t, ⟨ht, hp, start, hs, hy⟩, hw⟩

theorem yields_generate_iff : Yields (g.generate maxDepth) s word s' ↔
    g.terminals ≠ [] ∧ g.hasProductions = true
      ∧ ∃ start, g.start = some start ∧ Yields (g.generateFrom start maxDepth) s word s' := by
  simp only [generate_eq, generateFrom_eq, yields_map_grow_iff]

theorem yields_announce_iff {said : Logged Word} : Yields (g.announce maxDepth) s said s' ↔
    g.terminals ≠ [] ∧ g.hasProductions = true
      ∧ ∃ start, g.start = some start ∧ Yields (g.announceFrom start maxDepth) s said s' :=
  yields_map_grow_iff

/-- A word is reported with the nonterminal it is generated from. -/
theorem yields_announceFrom_iff (hn : g.nonterminals.Nodup) {said : Logged Word} :
    Yields (g.announceFrom c maxDepth) s said s' ↔
      Yields (g.generateFrom c maxDepth) s said.value s'
        ∧ said.log = [.generated said.value c] := by
  simp only [announceFrom, yields_map, yields_growFrom_iff hn, yields_generateFrom_iff hn]
  refine ⟨fun ⟨t, ht, hsaid⟩ => ?_, fun ⟨⟨t, ht, hword⟩, hlog⟩ => ⟨t, ht, ?_⟩⟩
  · subst hsaid
    exact ⟨⟨t, ht, rfl⟩, by rw [Tree.announced, Tree.event, ht.of.2]⟩
  · rw [Tree.announced, Tree.event, ht.of.2, hword, ← hlog]

/-! ## What is generated is derived -/

theorem derives_of_generateFrom (hg : g.Consistent)
    (h : Yields (g.generateFrom c maxDepth) s word s') : g.Derives c word := by
  obtain ⟨t, ht, hw⟩ := (yields_generateFrom_iff hg.nonterminals_nodup).1 h
  exact ⟨t, ht.of.1, ht.of.2, hw⟩

theorem Consistent.mem_terminals_of_mem_yield (hg : g.Consistent) {x : Char} :
    ∀ {t : Tree}, t.Of g → x ∈ t.yield → x ∈ g.terminals
  | .leaf c t, ht, hx => by
    rw [List.mem_singleton.1 hx]
    exact hg.declares c _ ht
  | .node _ left right, ht, hx => by
    rcases List.mem_append.1 hx with hx | hx
    · exact hg.mem_terminals_of_mem_yield ht.2.1 hx
    · exact hg.mem_terminals_of_mem_yield ht.2.2 hx

theorem Consistent.isDerived_eq_true_iff (hg : g.Consistent) :
    g.isDerived word = .ok true ↔ g.terminals ≠ [] ∧ g.hasProductions = true
      ∧ ∃ start, g.start = some start ∧ g.Derives start word := by
  simp only [isDerived_eq_ok_iff, checkQuery_eq_ok_iff, hg.derivesWord_table]
  refine ⟨fun h => ?_, fun h => ?_⟩
  · obtain ⟨start, ⟨ht, hp, hs, -⟩, hd⟩ := h
    exact ⟨ht, hp, start, hs, hd⟩
  · obtain ⟨ht, hp, start, hs, tree, htree, hc, rfl⟩ := h
    exact ⟨start, ⟨ht, hp, hs, fun x hx => hg.mem_terminals_of_mem_yield htree hx⟩,
      tree, htree, hc, rfl⟩

/-- Whatever is generated, from whatever source, is accepted by the recogniser: a word generated
from the start symbol is not empty, has terminals only and is derived; a word generated from `c` has
`c` in the cell of the whole word. -/
theorem generate_sound (hg : g.Reachable) (maxDepth : Nat) (source : Source) :
    (∀ word rest, Yields (g.generate maxDepth) source word rest →
        word ≠ [] ∧ (∀ x ∈ word, x ∈ g.terminals) ∧ g.isDerived word = .ok true)
      ∧ ∀ c word rest, Yields (g.generateFrom c maxDepth) source word rest →
        (g.table word).derivesWord c = true := by
  have hc := hg.consistent
  refine ⟨fun word rest h => ?_, fun c word rest h => ?_⟩
  · obtain ⟨ht, hp, start, hs, h⟩ := yields_generate_iff.1 h
    have hd := derives_of_generateFrom hc h
    have hok := hc.isDerived_eq_true_iff.2 ⟨ht, hp, start, hs, hd⟩
    obtain ⟨_, hq, -⟩ := isDerived_eq_ok_iff.1 hok
    exact ⟨hd.ne_nil, (checkQuery_eq_ok_iff.1 hq).2.2.2, hok⟩
  · exact hc.derivesWord_table.2 (derives_of_generateFrom hc h)

/-- `S` gives way to `AB`, `B` to `BB` since a level is still free, and then all are letters. -/
theorem generate_sample : sample.Reachable
    ∧ (∃ rest, Yields (sample.generate 2) (.ofList [0, 0, 0x80000000, 0, 0]) ['a', 'b', 'b'] rest)
    ∧ sample.isDerived ['a', 'b', 'b'] = .ok true := by
  have hrun : ((sample.generate 2).run (.ofList [0, 0, 0x80000000, 0, 0])).map (·.1) =
      some (.ok ['a', 'b', 'b']) := by decide +kernel
  obtain ⟨⟨_, rest⟩, hy, rfl⟩ := Option.map_eq_some_iff.1 hrun
  have hsound := (generate_sound reachable_sample 2 (.ofList [0, 0, 0x80000000, 0, 0])).1 _ rest hy
  exact ⟨reachable_sample, ⟨rest, hy⟩, hsound.2.2⟩

/-! ## What can be generated -/

theorem exists_yields_iff (hg : g.Consistent) :
    (∃ source rest, Yields (g.generateFrom c maxDepth) source word rest) ↔
      ∃ t : Tree, t.Of g ∧ t.symbol = c ∧ t.yield = word ∧ g.LowFrom maxDepth 0 t := by
  have hn := hg.nonterminals_nodup
  simp only [yields_generateFrom_iff hn]
  refine ⟨fun h => ?_, fun h => ?_⟩
  · obtain ⟨source, rest, t, ht, hw⟩ := h
    exact ⟨t, ht.of.1, ht.of.2, hw, ht.lowFrom hn rfl⟩
  · obtain ⟨t, ht, rfl, hw, hlow⟩ := h
    obtain ⟨words, hwords⟩ := exists_grows hg ht hlow
    exact ⟨.ofList words, _, t, hwords _ (Source.offers_ofList words), hw⟩

/-- Some source makes `c` generate a word exactly if the word is at the leaves of a derivation tree
below `c` in which all nodes at the depth limit and below take alternatives of the least height.
Over all depth limits that is the whole language. -/
theorem generateFrom_range (hg : g.Reachable) :
    (∀ c maxDepth word,
      (∃ source rest, Yields (g.generateFrom c maxDepth) source word rest) ↔
        ∃ t : Tree, t.Of g ∧ t.symbol = c ∧ t.yield = word
          ∧ ∀ p ∈ t.subtreesFrom 0, maxDepth ≤ p.1 → g.Lowest p.2.symbol p.2.alternative)
      ∧ ∀ word, g.isDerived word = .ok true ↔
        ∃ maxDepth source rest, Yields (g.generate maxDepth) source word rest := by
  have hc := hg.consistent
  refine ⟨fun c maxDepth word => exists_yields_iff hc, fun word => ⟨fun h => ?_, fun h => ?_⟩⟩
  · obtain ⟨ht, hp, start, hs, tree, htree, rfl, hw⟩ := hc.isDerived_eq_true_iff.1 h
    have hlow : g.LowFrom tree.height 0 tree := lowFrom_of_height_le (by omega)
    obtain ⟨source, rest, hy⟩ := (exists_yields_iff hc).2 ⟨tree, htree, rfl, hw, hlow⟩
    exact ⟨tree.height, source, rest, yields_generate_iff.2 ⟨ht, hp, _, hs, hy⟩⟩
  · obtain ⟨maxDepth, source, rest, hy⟩ := h
    obtain ⟨ht, hp, start, hs, hy⟩ := yields_generate_iff.1 hy
    exact hc.isDerived_eq_true_iff.2 ⟨ht, hp, start, hs, derives_of_generateFrom hc hy⟩

theorem generateFrom_range_sample : sample.Reachable
    ∧ sample.isDerived ['a', 'b', 'b', 'a', 'b'] = .ok true
    ∧ ∃ maxDepth source rest,
      Yields (sample.generate maxDepth) source ['a', 'b', 'b', 'a', 'b'] rest := by
  have h : sample.isDerived ['a', 'b', 'b', 'a', 'b'] = .ok true := by decide +kernel
  exact ⟨reachable_sample, h, ((generateFrom_range reachable_sample).2 _).1 h⟩

end Grammar

end Chomsky
