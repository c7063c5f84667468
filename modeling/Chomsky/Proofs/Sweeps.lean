import Chomsky.Proofs.Heights
import Mathlib.Logic.Function.Iterate

/-!
# Sweeps settle

Sweeping goes on as long as a sweep changes something. After as many sweeps as there are
nonterminals every least height is found (`of?_swept`), and where all of them are found a production
has nothing to offer, so the next sweep changes nothing (`Heights.Realised.sweep_eq`). Hence
sweeping ends with one more sweep than there are nonterminals or earlier, whatever the order of the
productions, and the bound on the sweeps never cuts it short (`sweeps_settle`).
-/

namespace Chomsky

namespace Heights

variable {g : Grammar} {H : Heights}

/-- Where all trees are accounted for, no production offers a height that is new or lower. -/
theorem Realised.improve_eq (hr : Realised g H) (hc : ∀ k, Covers g k H)
    {rule : Char × Alternative} (hrule : rule.2 ∈ g.alternatives rule.1) (flag : Bool) :
    Heights.improve (H, flag) rule = (H, flag) := by
  rcases improve_cases H flag rule with ⟨h, -⟩ | ⟨n, ha, hlow, -⟩
  · exact h
  · obtain ⟨t, ht, hs, rfl⟩ := hr.ofAlternative? hrule ha
    obtain ⟨m, hm, hH⟩ := hc t.height t ht le_rfl
    exact absurd (hlow m (hs ▸ hH)) (by omega)

theorem Realised.sweep_eq (hg : g.nonterminals.Nodup) (hr : Realised g H)
    (hc : ∀ k, Covers g k H) : g.sweep H = (H, false) := by
  unfold Grammar.sweep
  refine List.foldlRecOn g.rules Heights.improve (motive := (· = (H, false))) rfl ?_
  rintro _ rfl rule hrule
  exact hr.improve_eq hc ((Grammar.mem_rules_iff hg).1 hrule) false

end Heights

namespace Grammar

/-- The heights after so many sweeps. -/
def swept (g : Grammar) (sweeps : Nat) (H : Heights) : Heights :=
  (fun H => (g.sweep H).1)^[sweeps] H

/-- The heights in the course of sweeping: after so many whole sweeps, and so many productions of
the next one. -/
def heightsAt (g : Grammar) (sweeps productions : Nat) : Heights :=
  ((g.rules.take productions).foldl Heights.improve (g.swept sweeps [], false)).1

open Heights

variable {g : Grammar} {H : Heights} {c : Char} {n i j k k' : Nat}

/-! ## What sweeps find -/

theorem swept_succ (g : Grammar) (k : Nat) (H : Heights) :
    g.swept (k + 1) H = (g.sweep (g.swept k H)).1 :=
  Function.iterate_succ_apply' _ k H

theorem realised_swept (hg : g.nonterminals.Nodup) (k : Nat) : Realised g (g.swept k []) := by
  induction k with
  | zero => exact fun _ _ h => by cases h
  | succ k ih =>
    rw [swept_succ]
    exact ih.sweep hg

theorem covers_swept (hg : g.nonterminals.Nodup) (k : Nat) : Covers g k (g.swept k []) := by
  induction k with
  | zero => exact covers_zero _
  | succ k ih =>
    rw [swept_succ]
    exact ih.sweep hg

theorem of?_swept (hg : g.nonterminals.Nodup) (hmin : g.MinHeight c n) (hn : n ≤ k) :
    (g.swept k []).of? c = some n :=
  (realised_swept hg k).of?_eq (covers_swept hg k) hmin hn

theorem sweep_swept_length (hg : g.nonterminals.Nodup) :
    g.sweep (g.swept g.nonterminals.length []) = (g.swept g.nonterminals.length [], false) :=
  (realised_swept hg _).sweep_eq hg (covers_swept hg _).all

/-! ## Heights only fall -/

theorem sweep_noHigher (g : Grammar) (H : Heights) : NoHigher H (g.sweep H).1 :=
  foldl_improve_noHigher g.rules (H, false)

theorem swept_noHigher (h : k ≤ k') : NoHigher (g.swept k []) (g.swept k' []) := by
  induction k', h using Nat.le_induction with
  | base => exact .refl _
  | succ k' _ ih =>
    rw [swept_succ]
    exact ih.trans (g.sweep_noHigher _)

theorem heightsAt_noHigher_of_le (h : i ≤ j) : NoHigher (g.heightsAt k i) (g.heightsAt k j) := by
  have hsplit : g.rules.take j = g.rules.take i ++ (g.rules.drop i).take (j - i) := by
    rw [← List.take_add, Nat.add_sub_cancel' h]
  unfold heightsAt
  rw [hsplit, List.foldl_append]
  exact foldl_improve_noHigher _ _

theorem heightsAt_noHigher_swept_succ (g : Grammar) (k i : Nat) :
    NoHigher (g.heightsAt k i) (g.swept (k + 1) []) := by
  rw [swept_succ, sweep, ← List.take_append_drop i g.rules, List.foldl_append]
  exact foldl_improve_noHigher _ _

theorem swept_noHigher_heightsAt (g : Grammar) (k i : Nat) :
    NoHigher (g.swept k []) (g.heightsAt k i) :=
  foldl_improve_noHigher _ (g.swept k [], false)

theorem heightsAt_noHigher (h : k < k' ∨ k = k' ∧ i ≤ j) :
    NoHigher (g.heightsAt k i) (g.heightsAt k' j) := by
  rcases h with h | ⟨rfl, h⟩
  · exact ((g.heightsAt_noHigher_swept_succ k i).trans (swept_noHigher h)).trans
      (g.swept_noHigher_heightsAt k' j)
  · exact heightsAt_noHigher_of_le h

/-! ## When sweeping ends -/

/-- Either some sweep is the first that changes nothing, and sweeping ends with it; or all the
sweeps that are allowed change something. -/
theorem settle_cases (g : Grammar) : ∀ (sweeps : Nat) (H : Heights),
    (∃ k < sweeps, (∀ j < k, (g.sweep (g.swept j H)).2 = true)
        ∧ g.sweep (g.swept k H) = (g.settle sweeps H, false))
      ∨ ∀ j < sweeps, (g.sweep (g.swept j H)).2 = true
  | 0, H => .inr fun j hj => by omega
  | sweeps + 1, H => by
    unfold settle
    split <;> rename_i he
    · rename_i improved
      have hnext : ∀ j, g.swept (j + 1) H = g.swept j improved := by
        intro j
        rw [swept, Function.iterate_succ_apply, he]
        rfl
      have hall : ∀ {k}, (∀ j < k, (g.sweep (g.swept j improved)).2 = true) →
          ∀ j < k + 1, (g.sweep (g.swept j H)).2 = true := by
        intro k h j hj
        cases j with
        | zero => exact congrArg Prod.snd he
        | succ j =>
          rw [hnext]
          exact h j (by omega)
      rcases settle_cases g sweeps improved with ⟨k, hk, hchange, hlast⟩ | hchange
      · exact .inl ⟨k + 1, by omega, hall hchange, by rw [hnext, hlast]⟩
      · exact .inr (hall hchange)
    · exact .inl ⟨0, by omega, fun j hj => by omega, he⟩

theorem exists_last_sweep (hg : g.nonterminals.Nodup) :
    ∃ k ≤ g.nonterminals.length, (∀ j < k, (g.sweep (g.swept j [])).2 = true)
      ∧ g.sweep (g.swept k []) = (g.heights, false) := by
  rcases g.settle_cases (g.nonterminals.length + 1) [] with ⟨k, hk, hends⟩ | hchange
  · exact ⟨k, by omega, hends⟩
  · have hlast := hchange g.nonterminals.length (by omega)
    rw [sweep_swept_length hg] at hlast
    cases hlast

theorem exists_swept_eq_heights (hg : g.nonterminals.Nodup) : ∃ k, g.swept k [] = g.heights := by
  obtain ⟨k, -, -, hlast⟩ := exists_last_sweep hg
  exact ⟨k + 1, by rw [swept_succ, hlast]⟩

/-- Sweeping ends: the first sweep that changes nothing comes after at most as many others as there
are nonterminals, and leaves the heights. After so many sweeps every nonterminal with a lowest tree
of at most that height has its final height, and from one production to the next no height gets lost
or larger. -/
theorem sweeps_settle (hg : g.Reachable) :
    (∃ k ≤ g.nonterminals.length, (∀ j < k, (g.sweep (g.swept j [])).2 = true)
        ∧ g.sweep (g.swept k []) = (g.heights, false))
      ∧ (∀ k c n, g.MinHeight c n → n ≤ k →
        (g.swept k []).of? c = some n ∧ g.heights.of? c = some n)
      ∧ ∀ k k' i j, (k < k' ∨ k = k' ∧ i ≤ j) →
        NoHigher (g.heightsAt k i) (g.heightsAt k' j) := by
  have hn := hg.consistent.nonterminals_nodup
  exact ⟨exists_last_sweep hn,
    fun k c n hmin hk => ⟨of?_swept hn hmin hk, (of?_heights_iff hn).2 hmin⟩,
    fun _ _ _ _ => heightsAt_noHigher⟩

/-- The first sweep finds the letters of `A` and `B`, the second the pair of `S`. -/
theorem sweeps_settle_sample : sample.Reachable
    ∧ (∃ k ≤ 4, (∀ j < k, (sample.sweep (sample.swept j [])).2 = true)
      ∧ sample.sweep (sample.swept k []) = (sample.heights, false))
    ∧ sample.MinHeight 'S' 2 ∧ (sample.swept 2 []).of? 'S' = some 2
    ∧ NoHigher (sample.heightsAt 0 3) (sample.heightsAt 1 1) := by
  have hn := reachable_sample.consistent.nonterminals_nodup
  have hmin : sample.MinHeight 'S' 2 := (of?_heights_iff hn).1 (by decide +kernel)
  obtain ⟨hends, hfinal, hfall⟩ := sweeps_settle reachable_sample
  exact ⟨reachable_sample, hends, hmin, (hfinal 2 'S' 2 hmin le_rfl).1,
    hfall 0 1 3 1 (.inl (by decide))⟩

end Grammar

end Chomsky
