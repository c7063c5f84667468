import Chomsky.Proofs.Draws
import Chomsky.Proofs.Progress

/-!
# Steady sources

On a steady source every choice returns. A choice only moves on in the source, so a source stays
steady in a run (`Picks.exists_skip`, `Grows.exists_skip`) and no call gives up
(`Consistent.not_givesUp`). Many trees grow one after the other, as many as are asked for and all
from the start symbol (`trees_of_growMany`).
-/

namespace Chomsky

namespace Source

/-- Whether every single choice returns, however many words are taken before it. -/
def Steady (s : Source) : Prop :=
  ∀ words count, 0 < count → count < UInt32.size → (s.skip words).choose count ≠ none

variable {s s' : Source}

theorem Steady.skip (h : s.Steady) (words : Nat) : (s.skip words).Steady := by
  intro more count h0 hlt
  rw [skip_skip]
  exact h _ count h0 hlt

/-- No choice refuses the word zero, so finitely many words with zeros behind them are steady. -/
theorem steady_ofList {words : List UInt32} (h : words.length ≤ 1 <<< 48) :
    (ofList words).Steady := by
  intro before count _ _ hnone
  have hzero : ((ofList words).skip before).word words.length = 0 := by
    rw [word_skip]
    simp [word, ofList, ofStream]
  have haccept : ∃ k, Accepts count (((ofList words).skip before).word k) :=
    ⟨words.length, by simp [hzero, Accepts]⟩
  classical
  have hle : Nat.find haccept ≤ words.length := Nat.find_min' haccept (by simp [hzero, Accepts])
  have hpatience : ((ofList words).skip before).patience = 1 <<< 48 := rfl
  have hsome := chooseWithin_eq_some_iff.2 ⟨Nat.find haccept, Nat.lt_succ_of_le (hle.trans h),
    fun j hj => Nat.find_min haccept hj, Nat.find_spec haccept, rfl, rfl⟩
  rw [choose, hpatience] at hnone
  cases hsome.symm.trans hnone

end Source

namespace Grammar

open Generation

variable {g : Grammar} {H : Heights} {free amount maxDepth : Nat} {c : Char} {a : Alternative}
  {t : Tree} {ts : List Tree} {s s' : Source} {e : GenerateError} {root call : Call}

/-! ## How far a run moves on -/

theorem Picks.exists_skip (h : g.Picks H free c s a s') : ∃ words, s' = s.skip words := by
  obtain ⟨words, hs, -⟩ := h.repeated
  exact ⟨words, hs⟩

theorem Grows.exists_skip (h : g.Grows H free c s t s') : ∃ words, s' = s.skip words := by
  obtain ⟨words, hs, -⟩ := h.repeated
  exact ⟨words, hs⟩

theorem Reaches.steady (h : g.Reaches H root call) (hs : root.source.Steady) :
    call.source.Steady := by
  induction h with
  | here => exact hs
  | left pick _ ih =>
    obtain ⟨k, rfl⟩ := pick.exists_skip
    exact ih (hs.skip k)
  | right pick hl _ ih =>
    obtain ⟨k, rfl⟩ := pick.exists_skip
    obtain ⟨l, rfl⟩ := hl.exists_skip
    exact ih ((hs.skip k).skip l)

theorem Consistent.not_givesUp (hg : g.Consistent) (hs : call.source.Steady) :
    ¬ g.GivesUp H call := by
  rintro ⟨height, -, hne, hnone⟩
  have hlt : (openAlternatives H call.free height (g.alternatives call.symbol)).length <
      UInt32.size :=
    Nat.lt_of_le_of_lt (List.length_filter_le _ _) (hg.length_alternatives_lt call.symbol)
  exact hs 0 _ (List.length_pos_iff.2 hne) hlt hnone

/-! ## Many trees -/

theorem yields_growMany_succ : Yields (g.growMany maxDepth (amount + 1)) s ts s' ↔
    ∃ t s₁ rest, ts = t :: rest ∧ Yields (g.grow maxDepth) s t s₁
      ∧ Yields (g.growMany maxDepth amount) s₁ rest s' := by
  rw [growMany]
  simp only [yields_bind, yields_pure]
  refine ⟨fun h => ?_, fun h => ?_⟩
  · obtain ⟨t, s₁, ht, rest, _, hrest, rfl, rfl⟩ := h
    exact ⟨t, s₁, rest, rfl, ht, hrest⟩
  · obtain ⟨t, s₁, rest, rfl, ht, hrest⟩ := h
    exact ⟨t, s₁, ht, rest, s', hrest, rfl, rfl⟩

theorem fails_growMany_succ : Fails (g.growMany maxDepth (amount + 1)) s e s' ↔
    Fails (g.grow maxDepth) s e s'
      ∨ ∃ t s₁, Yields (g.grow maxDepth) s t s₁ ∧ Fails (g.growMany maxDepth amount) s₁ e s' := by
  rw [growMany]
  simp only [fails_bind, fails_pure, and_false, exists_false, or_false]

/-- As many trees grow as are asked for, all with the start symbol at the root. -/
theorem trees_of_growMany (hg : g.Consistent) : ∀ {amount : Nat} {ts : List Tree} {s : Source},
    Yields (g.growMany maxDepth amount) s ts s' → ts.length = amount
      ∧ ∀ t ∈ ts, t.Of g ∧ g.start = some t.symbol
  | 0, ts, s, h => by
    obtain ⟨rfl, -⟩ := yields_pure.1 h
    exact ⟨rfl, fun _ hm => by cases hm⟩
  | amount + 1, ts, s, h => by
    obtain ⟨t, s₁, rest, rfl, ht, hrest⟩ := yields_growMany_succ.1 h
    obtain ⟨hlen, hall⟩ := trees_of_growMany hg hrest
    obtain ⟨-, -, start, hs, ht⟩ := yields_grow_iff.1 ht
    obtain ⟨hof, rfl⟩ := ((yields_growFrom_iff hg.nonterminals_nodup).1 ht).of
    exact ⟨congrArg (· + 1) hlen, List.forall_mem_cons.2 ⟨⟨hof, hs⟩, hall⟩⟩

end Grammar

end Chomsky
