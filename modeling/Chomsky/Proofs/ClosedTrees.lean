import Chomsky.Proofs.LeastHeights
import Chomsky.Proofs.Steady

/-!
# The depth limit closes every tree

A run from a nonterminal that derives a word ends with a tree, unless one of its choices is given
up. Whatever part of that tree begins at the depth limit or below it is as low as its nonterminal
allows (`minHeight_of_mem_subtreesFrom`), so no tree has more levels below the limit than the
largest height (`growFrom_closes`). With the height the number of leaves is bounded too
(`Tree.length_yield_le`).
-/

namespace Chomsky

/-- With one more level the leaves can at most double. -/
theorem Tree.length_yield_le (t : Tree) : t.yield.length ≤ 2 ^ (t.height - 1) := by
  induction t with
  | leaf c x => exact le_rfl
  | node c left right ihl ihr =>
    have hl : left.yield.length ≤ 2 ^ (max left.height right.height - 1) :=
      ihl.trans (Nat.pow_le_pow_right Nat.two_pos (by omega))
    have hr : right.yield.length ≤ 2 ^ (max left.height right.height - 1) :=
      ihr.trans (Nat.pow_le_pow_right Nat.two_pos (by omega))
    have hpos := left.height_pos
    have hlevel : 1 + max left.height right.height - 1 =
        max left.height right.height - 1 + 1 := by omega
    rw [yield, height, List.length_append, hlevel, pow_succ]
    omega

namespace Grammar

open Generation

variable {g : Grammar} {maxDepth depth : Nat} {c : Char} {s : Source} {t : Tree}

theorem LowFrom.subtree (h : g.LowFrom maxDepth depth t) {p : Nat × Tree}
    (hp : p ∈ t.subtreesFrom depth) : g.LowFrom maxDepth p.1 p.2 := by
  induction t generalizing depth with
  | leaf c x =>
    rw [Tree.subtreesFrom, List.mem_singleton] at hp
    exact hp ▸ h
  | node c left right ihl ihr =>
    obtain ⟨-, hl, hr⟩ := lowFrom_node.1 h
    rw [Tree.subtreesFrom, List.mem_cons, List.mem_append] at hp
    rcases hp with rfl | hp | hp
    · exact h
    · exact ihl hl hp
    · exact ihr hr hp

theorem minHeight_of_mem_subtreesFrom (h : g.LowFrom maxDepth depth t) {p : Nat × Tree}
    (hp : p ∈ t.subtreesFrom depth) (hd : maxDepth ≤ p.1) : g.MinHeight p.2.symbol p.2.height :=
  minHeight_of_lowFrom (h.subtree hp) hd

/-- A run from a nonterminal that derives a word, on a source on which each of its choices returns,
grows a tree. What hangs at the depth limit or below is as low as can be, all of the tree if the
limit is zero. The tree has at most as many levels below the limit as the largest height, so no
bound on its levels that leaves room for them matters, and it has at most as many leaves as a full
tree so high. -/
theorem growFrom_closes (hg : g.Reachable) (hword : ∃ word, g.Derives c word) (maxDepth : Nat)
    (s : Source)
    (hs : ∀ call, g.Reaches g.heights ⟨maxDepth, c, s⟩ call → ¬ g.GivesUp g.heights call) :
    IsGreatest {n | ∃ x, g.heights.of? x = some n} g.heights.largest
      ∧ ∃ t s', Yields (g.growFrom c maxDepth) s t s'
        ∧ Yields (g.generateFrom c maxDepth) s t.yield s'
        ∧ (∀ levels, maxDepth + g.heights.largest ≤ levels →
          Yields (g.growWithin g.heights levels maxDepth c) s t s')
        ∧ t.Of g ∧ t.symbol = c
        ∧ (∀ p ∈ t.subtreesFrom 0, maxDepth ≤ p.1 → g.MinHeight p.2.symbol p.2.height)
        ∧ (maxDepth = 0 → g.MinHeight c t.height)
        ∧ t.height ≤ maxDepth + g.heights.largest
        ∧ t.yield.length ≤ 2 ^ (maxDepth + g.heights.largest - 1) := by
  have hn := hg.consistent.nonterminals_nodup
  obtain ⟨n, hc⟩ := (exists_word_iff hn).1 hword
  refine ⟨isGreatest_largest hn hc, ?_⟩
  obtain ⟨t, s', ht⟩ : ∃ t s', g.Grows g.heights maxDepth c s t s' := by
    rcases grows_or_givesUp hn maxDepth n hc s with hgrows | ⟨call, hcall, hgive⟩
    · exact hgrows
    · exact absurd hgive (hs call hcall)
  have hlow : g.LowFrom maxDepth 0 t := ht.lowFrom hn rfl
  have hheight : t.height ≤ maxDepth + g.heights.largest := height_le hn hlow
  have hlength : t.yield.length ≤ 2 ^ (maxDepth + g.heights.largest - 1) :=
    t.length_yield_le.trans (Nat.pow_le_pow_right Nat.two_pos (by omega))
  exact ⟨t, s', (yields_growFrom_iff hn).2 ht, (yields_generateFrom_iff hn).2 ⟨t, ht, rfl⟩,
    fun levels hle => yields_growWithin_iff.2 ⟨ht, hheight.trans hle⟩, ht.of.1, ht.of.2,
    fun p hp hd => minHeight_of_mem_subtreesFrom hlow hp hd,
    fun hzero => ht.of.2 ▸ minHeight_of_lowFrom hlow (by omega), hheight, hlength⟩

/-- At depth one `B` still gives way to `BB`, and then every part is a letter. -/
theorem growFrom_closes_sample : sample.Reachable ∧ (∃ word, sample.Derives 'S' word)
    ∧ (∀ call, sample.Reaches sample.heights ⟨2, 'S', .ofList [0, 0, 0x80000000]⟩ call →
      ¬ sample.GivesUp sample.heights call)
    ∧ ∃ t s', Yields (sample.growFrom 'S' 2) (.ofList [0, 0, 0x80000000]) t s'
      ∧ (∀ p ∈ t.subtreesFrom 0, 2 ≤ p.1 → sample.MinHeight p.2.symbol p.2.height)
      ∧ t.height ≤ 4 ∧ t.yield.length ≤ 8 := by
  have hg := reachable_sample.consistent
  have hword : ∃ word, sample.Derives 'S' word :=
    (exists_word_iff hg.nonterminals_nodup).2 ⟨2, by decide +kernel⟩
  have hsteady : (Source.ofList [0, 0, 0x80000000]).Steady := Source.steady_ofList (by decide)
  have hs : ∀ call, sample.Reaches sample.heights ⟨2, 'S', .ofList [0, 0, 0x80000000]⟩ call →
      ¬ sample.GivesUp sample.heights call :=
    fun call hcall => hg.not_givesUp (hcall.steady hsteady)
  have hlargest : sample.heights.largest = 2 := by decide +kernel
  obtain ⟨-, t, s', hy, -, -, -, -, hlow, -, hheight, hlength⟩ :=
    growFrom_closes reachable_sample hword 2 _ hs
  rw [hlargest] at hheight hlength
  exact ⟨reachable_sample, hword, hs, t, s', hy, hlow, hheight, hlength⟩

end Grammar

end Chomsky
