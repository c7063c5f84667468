import Chomsky.Proofs.Steady
import Mathlib.Data.List.Forall2

/-!
# Many words

Whether a word can be generated is a matter of the grammar alone: it bars generation for some reason
or it does not, whatever is drawn (`fails_grow_iff`). So many words fail with the first of them,
before a number is drawn, or not at all (`fails_growMany_iff`), and no words are ever thrown away,
nor the reports on them (`reports_of_announceMany`). What is generated in one go can as well be
generated in two, the second from where the first left the source (`growMany_add`).
-/

namespace Chomsky

namespace Grammar

open Generation

/-- Whether this is the reason why a grammar generates no word. -/
def Bars (g : Grammar) : GenerateError → Prop
  | .emptyGrammar => ¬ (g.terminals ≠ [] ∧ g.hasProductions = true)
  | .noStartSymbol => g.terminals ≠ [] ∧ g.hasProductions = true ∧ g.start = none
  | .unproductive c => g.terminals ≠ [] ∧ g.hasProductions = true ∧ g.start = some c
    ∧ ¬ ∃ word, g.Derives c word

/-- Whether a run for so many trees comes to a call, in the tree that follows some of the others. -/
def Meets (g : Grammar) (maxDepth amount : Nat) (s : Source) (call : Call) : Prop :=
  ∃ before < amount, ∃ ts s₁ start, Yields (g.growMany maxDepth before) s ts s₁
    ∧ g.start = some start ∧ g.Reaches g.heights ⟨maxDepth, start, s₁⟩ call

/-- Whether every single choice of a run for so many trees returns. -/
def ChoicesReturn (g : Grammar) (maxDepth amount : Nat) (s : Source) : Prop :=
  ∀ call, g.Meets maxDepth amount s call → ¬ g.GivesUp g.heights call

variable {g : Grammar} {amount maxDepth : Nat} {t : Tree} {ts : List Tree} {s s' : Source}
  {words : List Word} {e : GenerateError}

/-! ## What the grammar decides -/

theorem fails_generate_iff_bars (hn : g.nonterminals.Nodup) :
    Fails (g.generate maxDepth) s e s' ↔ g.Bars e ∧ s' = s := by
  rw [fails_generate_iff]
  simp only [fails_generateFrom_iff hn]
  cases e with
  | emptyGrammar => simp [Bars]
  | noStartSymbol => simp [Bars, and_assoc]
  | unproductive c => simp [Bars, and_assoc, and_left_comm]

theorem fails_grow_iff (hn : g.nonterminals.Nodup) :
    Fails (g.grow maxDepth) s e s' ↔ g.Bars e ∧ s' = s := by
  rw [← fails_generate_iff_bars hn, generate_eq, fails_map]

theorem not_bars_of_grow (hn : g.nonterminals.Nodup) (h : Yields (g.grow maxDepth) s t s') :
    ¬ g.Bars e :=
  fun hbars => h.not_fails ((fails_grow_iff hn).2 ⟨hbars, rfl⟩)

/-- Behind one tree no other fails, so there is nothing to fail but the first. -/
theorem fails_growMany_iff (hn : g.nonterminals.Nodup) :
    Fails (g.growMany maxDepth amount) s e s' ↔ 0 < amount ∧ g.Bars e ∧ s' = s := by
  induction amount generalizing s with
  | zero => simp [growMany]
  | succ amount ih =>
    rw [fails_growMany_succ, fails_grow_iff hn, and_iff_right (Nat.succ_pos amount),
      or_iff_left_iff_imp]
    rintro ⟨t, s₁, ht, hrest⟩
    exact absurd (ih.1 hrest).2.1 (not_bars_of_grow hn ht)

theorem yields_generateMany_iff : Yields (g.generateMany amount maxDepth) s words s' ↔
    ∃ ts, Yields (g.growMany maxDepth amount) s ts s' ∧ ts.map Tree.yield = words := by
  rw [generateMany_eq, yields_map]

theorem fails_generateMany_iff : Fails (g.generateMany amount maxDepth) s e s' ↔
    Fails (g.growMany maxDepth amount) s e s' := by
  rw [generateMany_eq, fails_map]

/-- Each word is reported with the start symbol. -/
theorem reports_of_announceMany (hg : g.Consistent) {said : Logged (List Word)}
    (h : Yields (g.announceMany amount maxDepth) s said s') :
    Yields (g.generateMany amount maxDepth) s said.value s'
      ∧ List.Forall₂ (fun word event => ∃ start, g.start = some start
        ∧ event = Event.generated word start) said.value said.log := by
  obtain ⟨ts, hts, rfl⟩ := yields_map.1 h
  refine ⟨yields_generateMany_iff.2 ⟨ts, hts, rfl⟩, ?_⟩
  simp only [List.forall₂_map_left_iff, List.forall₂_map_right_iff, List.forall₂_same]
  exact fun t ht => ⟨t.symbol, ((trees_of_growMany hg hts).2 t ht).2, rfl⟩

theorem isDerived_of_growMany (hg : g.Consistent) (h : Yields (g.growMany maxDepth amount) s ts s')
    (ht : t ∈ ts) : g.isDerived t.yield = .ok true := by
  obtain ⟨hlen, hall⟩ := trees_of_growMany hg h
  obtain ⟨hof, hstart⟩ := hall t ht
  have hpos : 0 < amount := hlen ▸ List.length_pos_of_mem ht
  have hequipped : g.terminals ≠ [] ∧ g.hasProductions = true := by
    by_contra hbars
    exact h.not_fails ((fails_growMany_iff (e := .emptyGrammar) hg.nonterminals_nodup).2
      ⟨hpos, hbars, rfl⟩)
  exact hg.isDerived_eq_true_iff.2
    ⟨hequipped.1, hequipped.2, t.symbol, hstart, t, hof, rfl, rfl⟩

/-! ## One after the other -/

theorem growMany_add (g : Grammar) (maxDepth a b : Nat) : g.growMany maxDepth (a + b) = (do
    let first ← g.growMany maxDepth a
    let second ← g.growMany maxDepth b
    return first ++ second) := by
  induction a with
  | zero => simp [growMany]
  | succ a ih =>
    rw [Nat.succ_add, growMany, growMany, ih]
    simp

theorem generateMany_add (g : Grammar) (maxDepth a b : Nat) :
    g.generateMany (a + b) maxDepth = (do
      let first ← g.generateMany a maxDepth
      let second ← g.generateMany b maxDepth
      return first ++ second) := by
  simp [generateMany_eq, growMany_add]

theorem exists_skip_of_growMany (hn : g.nonterminals.Nodup) :
    ∀ {amount : Nat} {ts : List Tree} {s : Source}, Yields (g.growMany maxDepth amount) s ts s' →
      ∃ drawn, s' = s.skip drawn
  | 0, ts, s, h => by
    obtain ⟨-, rfl⟩ := yields_pure.1 h
    exact ⟨0, rfl⟩
  | amount + 1, ts, s, h => by
    obtain ⟨t, s₁, rest, -, ht, hrest⟩ := yields_growMany_succ.1 h
    obtain ⟨-, -, start, -, ht⟩ := yields_grow_iff.1 ht
    obtain ⟨first, rfl⟩ := ((yields_growFrom_iff hn).1 ht).exists_skip
    obtain ⟨others, rfl⟩ := exists_skip_of_growMany hn hrest
    exact ⟨first + others, Source.skip_skip s first others⟩

theorem exists_skip_of_generateMany (hn : g.nonterminals.Nodup)
    (h : Yields (g.generateMany amount maxDepth) s words s') : ∃ drawn, s' = s.skip drawn := by
  obtain ⟨ts, hts, -⟩ := yields_generateMany_iff.1 h
  exact exists_skip_of_growMany hn hts

theorem yields_generateMany_add (hn : g.nonterminals.Nodup) {a b : Nat} :
    Yields (g.generateMany (a + b) maxDepth) s words s' ↔
      ∃ first m second n, Yields (g.generateMany a maxDepth) s first (s.skip m)
        ∧ Yields (g.generateMany b maxDepth) (s.skip m) second (s.skip (m + n))
        ∧ words = first ++ second ∧ s' = s.skip (m + n) := by
  rw [generateMany_add, yields_bind]
  refine ⟨fun h => ?_, fun h => ?_⟩
  · obtain ⟨first, s₁, hfirst, h⟩ := h
    obtain ⟨second, s₂, hsecond, h⟩ := yields_bind.1 h
    obtain ⟨rfl, rfl⟩ := yields_pure.1 h
    obtain ⟨m, rfl⟩ := exists_skip_of_generateMany hn hfirst
    obtain ⟨n, rfl⟩ := exists_skip_of_generateMany hn hsecond
    rw [Source.skip_skip] at hsecond ⊢
    exact ⟨first, m, second, n, hfirst, hsecond, rfl, rfl⟩
  · obtain ⟨first, m, second, n, hfirst, hsecond, rfl, rfl⟩ := h
    exact ⟨first, _, hfirst, yields_bind.2 ⟨second, _, hsecond, yields_pure.2 ⟨rfl, rfl⟩⟩⟩

/-! ## As long as choices return -/

theorem Meets.mono {more : Nat} {call : Call} (h : g.Meets maxDepth amount s call)
    (hle : amount ≤ more) : g.Meets maxDepth more s call := by
  obtain ⟨before, hlt, hmeets⟩ := h
  exact ⟨before, hlt.trans_le hle, hmeets⟩

theorem ChoicesReturn.of_steady (hg : g.Consistent) (hs : s.Steady) :
    g.ChoicesReturn maxDepth amount s := by
  rintro call ⟨before, -, ts, s₁, start, hts, -, hcall⟩
  obtain ⟨drawn, rfl⟩ := exists_skip_of_growMany hg.nonterminals_nodup hts
  exact hg.not_givesUp (hcall.steady (hs.skip drawn))

/-- A tree more grows behind those that grew: the grammar does not bar it, and its choices return.
-/
theorem ChoicesReturn.grows (hn : g.nonterminals.Nodup) (hbars : ∀ e, ¬ g.Bars e) :
    ∀ {amount : Nat}, g.ChoicesReturn maxDepth amount s →
      ∃ ts s', Yields (g.growMany maxDepth amount) s ts s'
  | 0, _ => ⟨[], s, yields_pure.2 ⟨rfl, rfl⟩⟩
  | amount + 1, h => by
    obtain ⟨ts, s₁, hts⟩ := ChoicesReturn.grows hn hbars fun call hcall =>
      h call (hcall.mono (Nat.le_succ amount))
    have hequipped : g.terminals ≠ [] ∧ g.hasProductions = true :=
      not_not.1 (hbars .emptyGrammar)
    obtain ⟨start, hstart⟩ : ∃ start, g.start = some start :=
      Option.ne_none_iff_exists'.1 fun hnone =>
        hbars .noStartSymbol ⟨hequipped.1, hequipped.2, hnone⟩
    have hword : ∃ word, g.Derives start word :=
      not_not.1 fun hnone => hbars (.unproductive start) ⟨hequipped.1, hequipped.2, hstart, hnone⟩
    obtain ⟨n, hheight⟩ := (exists_word_iff hn).1 hword
    rcases grows_or_givesUp hn maxDepth n hheight s₁ with ⟨t, s', ht⟩ | ⟨call, hcall, hgive⟩
    · have hgrow : Yields (g.grow maxDepth) s₁ t s' :=
        yields_grow_iff.2 ⟨hequipped.1, hequipped.2, start, hstart, (yields_growFrom_iff hn).2 ht⟩
      refine ⟨ts ++ [t], s', ?_⟩
      rw [growMany_add, yields_bind]
      refine ⟨ts, s₁, hts, yields_bind.2 ⟨[t], s', ?_, yields_pure.2 ⟨rfl, rfl⟩⟩⟩
      exact yields_growMany_succ.2 ⟨t, s', [], rfl, hgrow, yields_pure.2 ⟨rfl, rfl⟩⟩
    · have hmeets : g.Meets maxDepth (amount + 1) s call :=
        ⟨amount, Nat.lt_succ_self amount, ts, s₁, start, hts, hstart, hcall⟩
      exact absurd hgive (h call hmeets)

/-- From a steady source many trees grow, or the first of them fails. -/
theorem Consistent.growMany_settles (hg : g.Consistent) (maxDepth amount : Nat) (hs : s.Steady) :
    (∃ ts s', Yields (g.growMany maxDepth amount) s ts s')
      ∨ ∃ e s', Fails (g.growMany maxDepth amount) s e s' := by
  have hn := hg.nonterminals_nodup
  by_cases hbars : ∃ e, g.Bars e
  · obtain ⟨e, hbars⟩ := hbars
    rcases Nat.eq_zero_or_pos amount with rfl | hpos
    · exact .inl ⟨[], s, yields_pure.2 ⟨rfl, rfl⟩⟩
    · exact .inr ⟨e, s, (fails_growMany_iff hn).2 ⟨hpos, hbars, rfl⟩⟩
  · exact .inl ((ChoicesReturn.of_steady hg hs).grows hn (not_exists.1 hbars))

/-! ## All or nothing -/

/-- Many words are all or nothing. No words take no check and no draw. One or more fail exactly if a
single one does, for the same reason and before a number is drawn, and this depends neither on the
source nor on the depth limit. If a single one does not fail and every choice returns, there are as
many words as are asked for, all of them derived. And `a + b` words are `a` words and then, from
where these leave the source, `b` words: the numbers drawn add up. -/
theorem generateMany_all_or_nothing (hg : g.Reachable) (maxDepth : Nat) :
    (∀ s, (g.generateMany 0 maxDepth).run s = some (.ok [], s))
      ∧ (∀ amount s e s', Fails (g.generateMany (amount + 1) maxDepth) s e s' ↔
        Fails (g.generate maxDepth) s e s')
      ∧ (∀ s e s', Fails (g.generate maxDepth) s e s' →
        s' = s ∧ ∀ depth other, Fails (g.generate depth) other e other)
      ∧ (∀ amount s, g.ChoicesReturn maxDepth amount s →
        (∀ e s', ¬ Fails (g.generate maxDepth) s e s') →
          ∃ words drawn, Yields (g.generateMany amount maxDepth) s words (s.skip drawn))
      ∧ (∀ amount s words s', Yields (g.generateMany amount maxDepth) s words s' →
        words.length = amount ∧ ∀ word ∈ words, g.isDerived word = .ok true)
      ∧ ∀ a b, (g.generateMany (a + b) maxDepth = do
          let first ← g.generateMany a maxDepth
          let second ← g.generateMany b maxDepth
          return first ++ second)
        ∧ ∀ s words s', Yields (g.generateMany (a + b) maxDepth) s words s' ↔
          ∃ first m second n, Yields (g.generateMany a maxDepth) s first (s.skip m)
            ∧ Yields (g.generateMany b maxDepth) (s.skip m) second (s.skip (m + n))
            ∧ words = first ++ second ∧ s' = s.skip (m + n) := by
  have hc := hg.consistent
  have hn := hc.nonterminals_nodup
  have hone : ∀ {depth s e s'}, Fails (g.generate depth) s e s' ↔ g.Bars e ∧ s' = s :=
    fails_generate_iff_bars hn
  refine ⟨fun s => rfl, fun amount s e s' => ?_, fun s e s' h => ?_, fun amount s hs hfails => ?_,
    fun amount s words s' h => ?_,
    fun a b => ⟨generateMany_add g maxDepth a b, fun s words s' => yields_generateMany_add hn⟩⟩
  · rw [hone, fails_generateMany_iff, fails_growMany_iff hn, and_iff_right (Nat.succ_pos amount)]
  · obtain ⟨hbars, hs⟩ := hone.1 h
    exact ⟨hs, fun depth other => hone.2 ⟨hbars, rfl⟩⟩
  · obtain ⟨ts, s', hts⟩ := hs.grows hn fun e hbars => hfails e s (hone.2 ⟨hbars, rfl⟩)
    obtain ⟨drawn, rfl⟩ := exists_skip_of_growMany hn hts
    exact ⟨ts.map Tree.yield, drawn, yields_generateMany_iff.2 ⟨ts, hts, rfl⟩⟩
  · obtain ⟨ts, hts, rfl⟩ := yields_generateMany_iff.1 h
    refine ⟨by rw [List.length_map, (trees_of_growMany hc hts).1], fun word hw => ?_⟩
    obtain ⟨t, ht, rfl⟩ := List.mem_map.1 hw
    exact isDerived_of_growMany hc hts ht

/-- The depth limit leaves only `AB` to `S`, so a word takes one pick for each of the three nodes.
-/
theorem generateMany_all_or_nothing_sample : sample.Reachable
    ∧ Yields (sample.generateMany 2 0) (.ofList [7]) [['a', 'b'], ['a', 'b']]
      ((Source.ofList [7]).skip 6)
    ∧ ∃ words drawn, Yields (sample.generateMany 3 0) (.ofList [7]) words
      ((Source.ofList [7]).skip drawn) ∧ words.length = 3 := by
  have hc := reachable_sample.consistent
  obtain ⟨-, hmany, -, hgrows, hwords, -⟩ := generateMany_all_or_nothing reachable_sample 0
  have hy : Yields (sample.generateMany 2 0) (.ofList [7]) [['a', 'b'], ['a', 'b']]
      ((Source.ofList [7]).skip 6) :=
    yields_of_taken (fun _ _ => exists_skip_of_generateMany hc.nonterminals_nodup)
      (by decide +kernel)
  have hfails : ∀ e s', ¬ Fails (sample.generate 0) (.ofList [7]) e s' :=
    fun e s' h => hy.not_fails ((hmany 1 _ e s').2 h)
  have hreturn : sample.ChoicesReturn 0 3 (.ofList [7]) :=
    .of_steady hc (Source.steady_ofList (by decide))
  obtain ⟨words, drawn, hy'⟩ := hgrows 3 _ hreturn hfails
  exact ⟨reachable_sample, hy, words, drawn, hy', (hwords 3 _ _ _ hy').1⟩

end Grammar

end Chomsky
