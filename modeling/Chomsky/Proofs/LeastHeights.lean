import Chomsky.Proofs.Progress
import Chomsky.Proofs.Sweeps
import Mathlib.Data.Char

/-!
# The map of the heights

The heights are kept ascending by nonterminal (`Ascending`). Setting a height keeps that order, so
sweeping does (`ascending_heights`), and no nonterminal has two entries. So the entries are what is
looked up, and the largest of them is the largest height of a nonterminal (`isGreatest_largest`).

A nonterminal has an entry if it derives a word. The entry is the height of its lowest trees, and
the least height that the entries give to its alternatives (`heights_least`).
-/

namespace Chomsky

namespace Heights

/-- Whether the entries are ascending by nonterminal. -/
def Ascending (H : Heights) : Prop := H.Pairwise fun p q => p.1 < q.1

variable {g : Grammar} {H : Heights} {c : Char} {n : Nat}

/-! ## Entries -/

theorem Ascending.nodup_keys (h : H.Ascending) : (H.map Prod.fst).Nodup :=
  List.pairwise_map.2 (h.imp ne_of_lt)

theorem Ascending.of?_eq_some_iff (h : H.Ascending) : H.of? c = some n ↔ (c, n) ∈ H :=
  lookup_eq_some_iff_mem h.nodup_keys

theorem mem_set {p : Char × Nat} : ∀ {H : Heights}, p ∈ H.set c n → p = (c, n) ∨ p ∈ H
  | [], h => .inl (List.mem_singleton.1 h)
  | (d, other) :: rest, h => by
    simp only [set] at h
    split_ifs at h
    · exact (List.mem_cons.1 h).imp id fun h => h
    · exact (List.mem_cons.1 h).imp id (List.mem_cons_of_mem _)
    · rcases List.mem_cons.1 h with rfl | h
      · exact .inr List.mem_cons_self
      · exact (mem_set h).imp id (List.mem_cons_of_mem _)

theorem Ascending.set : ∀ {H : Heights}, H.Ascending → (H.set c n).Ascending
  | [], _ => List.pairwise_singleton _ _
  | (d, other) :: rest, h => by
    obtain ⟨hd, hrest⟩ := List.pairwise_cons.1 h
    simp only [Heights.set]
    split_ifs with hlt heq
    · refine List.pairwise_cons.2 ⟨fun p hp => ?_, h⟩
      rcases List.mem_cons.1 hp with rfl | hp
      · exact hlt
      · exact hlt.trans (hd p hp)
    · subst heq
      exact List.pairwise_cons.2 ⟨hd, hrest⟩
    · refine List.pairwise_cons.2 ⟨fun p hp => ?_, Ascending.set hrest⟩
      rcases mem_set hp with rfl | hp
      · exact lt_of_le_of_ne (not_lt.1 hlt) (Ne.symm heq)
      · exact hd p hp

theorem Ascending.improve (h : H.Ascending) (flag : Bool) (rule : Char × Alternative) :
    (Heights.improve (H, flag) rule).1.Ascending := by
  rcases improve_cases H flag rule with ⟨he, -⟩ | ⟨n, -, -, he⟩ <;> rw [he]
  · exact h
  · exact h.set

theorem Ascending.sweep (h : H.Ascending) : (g.sweep H).1.Ascending :=
  List.foldlRecOn g.rules Heights.improve (motive := (·.1.Ascending)) h
    fun _ hs rule _ => hs.improve _ rule

/-! ## The largest entry -/

theorem Ascending.isGreatest_largest (h : H.Ascending) (hc : H.of? c = some n) (hn : 0 < n) :
    IsGreatest {m | ∃ x, H.of? x = some m} H.largest := by
  refine ⟨?_, fun m ⟨x, hx⟩ => le_largest hx⟩
  rcases (isGreatest_foldl_max Prod.snd H).1 with hzero | ⟨⟨x, m⟩, hx, hm⟩
  · have hle : n ≤ H.largest := le_largest hc
    have hlargest : H.largest = 0 := hzero
    omega
  · have hlargest : m = H.largest := hm
    exact ⟨x, h.of?_eq_some_iff.2 (hlargest ▸ hx)⟩

end Heights

namespace Grammar

variable {g : Grammar} {c : Char} {n : Nat}

theorem ascending_swept (g : Grammar) (k : Nat) : (g.swept k []).Ascending := by
  induction k with
  | zero => exact List.Pairwise.nil
  | succ k ih =>
    rw [swept_succ]
    exact ih.sweep

theorem ascending_heights (hg : g.nonterminals.Nodup) : g.heights.Ascending := by
  obtain ⟨k, hk⟩ := exists_swept_eq_heights hg
  exact hk ▸ g.ascending_swept k

theorem isGreatest_largest (hg : g.nonterminals.Nodup) (hc : g.heights.of? c = some n) :
    IsGreatest {m | ∃ x, g.heights.of? x = some m} g.heights.largest := by
  obtain ⟨t, -, -, rfl⟩ := heights_realised hg c n hc
  exact (ascending_heights hg).isGreatest_largest hc t.height_pos

theorem isLeast_alternatives (hg : g.nonterminals.Nodup) (h : g.heights.of? c = some n) :
    IsLeast {m | ∃ a ∈ g.alternatives c, g.heights.ofAlternative? a = some m} n := by
  refine ⟨exists_lowest hg h, fun m ⟨a, ha, hm⟩ => ?_⟩
  obtain ⟨t, ht, hs, rfl⟩ := (heights_realised hg).ofAlternative? ha hm
  exact ((of?_heights_iff hg).1 h).le ht hs

/-- The heights have one entry for every nonterminal that derives a word and none for the others.
The entry is the height of its lowest trees, it is also the least that the entries themselves give
to its alternatives, and it is at most the number of nonterminals. -/
theorem heights_least (hg : g.Reachable) :
    (∀ c n, (c, n) ∈ g.heights ↔ g.heights.of? c = some n)
      ∧ (∀ c, (∃ n, g.heights.of? c = some n) ↔ ∃ word, g.Derives c word)
      ∧ ∀ c n, g.heights.of? c = some n →
        IsLeast {m | ∃ t : Tree, t.Of g ∧ t.symbol = c ∧ t.height = m} n
          ∧ IsLeast {m | ∃ a ∈ g.alternatives c, g.heights.ofAlternative? a = some m} n
          ∧ n ≤ g.nonterminals.length := by
  have hn := hg.consistent.nonterminals_nodup
  refine ⟨fun c n => (ascending_heights hn).of?_eq_some_iff.symm,
    fun c => (exists_word_iff hn).symm, fun c n h => ?_⟩
  have hmin : g.MinHeight c n := (of?_heights_iff hn).1 h
  exact ⟨hmin, isLeast_alternatives hn h, hmin.le_length⟩

/-- `S` is as low as its pair of `A` and `B`, while that of `S` and `S` is higher. -/
theorem heights_least_sample : sample.Reachable ∧ sample.heights.of? 'S' = some 2
    ∧ IsLeast {m | ∃ t : Tree, t.Of sample ∧ t.symbol = 'S' ∧ t.height = m} 2
    ∧ IsLeast {m | ∃ a ∈ sample.alternatives 'S', sample.heights.ofAlternative? a = some m} 2
    ∧ ¬ ∃ word, sample.Derives 'U' word := by
  have hS : sample.heights.of? 'S' = some 2 := by decide +kernel
  have hU : sample.heights.of? 'U' = none := by decide +kernel
  obtain ⟨-, hword, hleast⟩ := heights_least reachable_sample
  obtain ⟨htree, halternative, -⟩ := hleast 'S' 2 hS
  refine ⟨reachable_sample, hS, htree, halternative, fun h => ?_⟩
  obtain ⟨n, hn⟩ := (hword 'U').2 h
  rw [hU] at hn
  cases hn

end Grammar

end Chomsky
