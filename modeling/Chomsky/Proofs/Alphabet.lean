import Chomsky.Proofs.Reachable

/-!
# Alphabets are finite

A letter is declared once and has a case, so an alphabet is no larger than the runs of the letters
with that case. A nonterminal therefore never has so many alternatives that a word of 32 bits could
not tell them apart (`Consistent.length_alternatives_lt`).
-/

namespace Chomsky

namespace CharacterSet

/-- All values from the first to the last of every run, so at least those of the set. -/
def values (s : CharacterSet) : List Nat :=
  s.flatMap fun r => List.range' r.first (r.last + 1 - r.first)

theorem toNat_mem_values {s : CharacterSet} {c : Char} (h : s.holds c = true) :
    c.toNat ∈ s.values := by
  obtain ⟨r, hr, hc⟩ := holds_iff.1 h
  obtain ⟨hfirst, hlast, -⟩ := Run.holds_iff.1 hc
  exact List.mem_flatMap.2 ⟨r, hr, List.mem_range'_1.2 (by omega)⟩

theorem length_le_length_values {s : CharacterSet} {letters : List Char} (hn : letters.Nodup)
    (hs : ∀ c ∈ letters, s.holds c = true) : letters.length ≤ s.values.length := by
  have hsub : letters.map Char.toNat ⊆ s.values := by
    intro n hm
    obtain ⟨c, hc, rfl⟩ := List.mem_map.1 hm
    exact toNat_mem_values (hs c hc)
  have hmap : (letters.map Char.toNat).Nodup := hn.map fun _ _ => Char.toNat_inj.1
  have hlen := hmap.length_le_of_subset hsub
  rwa [List.length_map] at hlen

end CharacterSet

theorem length_values_lowercaseSet : lowercaseSet.values.length = 3100 := by decide +kernel

theorem length_values_uppercaseSet : uppercaseSet.values.length = 2520 := by decide +kernel

theorem isLowercase_of_terminal {c : Char} (h : Symbol.ofChar? c = some (.terminal c)) :
    isLowercase c = true := by
  unfold Symbol.ofChar? at h
  split_ifs at h with hl hu
  · exact hl
  · cases h

theorem isUppercase_of_nonterminal {c : Char} (h : Symbol.ofChar? c = some (.nonterminal c)) :
    isUppercase c = true := by
  unfold Symbol.ofChar? at h
  split_ifs at h with hl hu
  · cases h
  · exact hu

namespace Grammar

variable {g : Grammar}

theorem Consistent.length_terminals_le (hg : g.Consistent) : g.terminals.length ≤ 3100 := by
  rw [← length_values_lowercaseSet]
  exact CharacterSet.length_le_length_values hg.terminals_nodup
    fun c hc => isLowercase_of_terminal (hg.terminal_case c hc)

theorem Consistent.length_nonterminals_le (hg : g.Consistent) : g.nonterminals.length ≤ 2520 := by
  rw [← length_values_uppercaseSet]
  exact CharacterSet.length_le_length_values hg.nonterminals_nodup
    fun c hc => isUppercase_of_nonterminal (hg.nonterminal_case c hc)

theorem Consistent.length_alternatives_le (hg : g.Consistent) (c : Char) :
    (g.alternatives c).length
      ≤ g.terminals.length + g.nonterminals.length * g.nonterminals.length := by
  let pairs := g.nonterminals.flatMap fun b => g.nonterminals.map (Alternative.pair b)
  have hsub : g.alternatives c ⊆ g.terminals.map .letter ++ pairs := by
    intro a ha
    have hd := hg.declares c a ha
    cases a with
    | letter t => exact List.mem_append_left _ (List.mem_map_of_mem hd)
    | pair b d =>
      refine List.mem_append_right _ (List.mem_flatMap.2 ⟨b, hd.1, ?_⟩)
      exact List.mem_map_of_mem hd.2
  have hlen := (hg.alternatives_nodup c).length_le_of_subset hsub
  have hpairs : pairs.length = g.nonterminals.length * g.nonterminals.length := by
    simp [pairs, List.length_flatMap]
  rwa [List.length_append, List.length_map, hpairs] at hlen

theorem Consistent.length_alternatives_lt (hg : g.Consistent) (c : Char) :
    (g.alternatives c).length < UInt32.size := by
  have ht := hg.length_terminals_le
  have hn := Nat.mul_le_mul hg.length_nonterminals_le hg.length_nonterminals_le
  have ha := hg.length_alternatives_le c
  have hsize : UInt32.size = 4294967296 := rfl
  omega

end Grammar

end Chomsky
