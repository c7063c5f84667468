import Chomsky.Grammar.Edit
import Mathlib.Data.List.Nodup

/-!
# Reachable grammars

A grammar is reachable if edits lead to it from the empty one. An edit is checked before it becomes
a change, and what is checked is what every change keeps (`Consistent.commit`): letters are declared
once and with the right case, and whatever the start symbol and the alternatives name is declared.
So every reachable grammar is consistent (`Reachable.consistent`).
-/

namespace Chomsky

/-- In a list without repetition every place of an element is the first. -/
theorem idxOf?_eq_some_iff_getElem? {letters : List Char} (hn : letters.Nodup) {c : Char}
    {i : Nat} : letters.idxOf? c = some i ↔ letters[i]? = some c := by
  rw [List.idxOf?_eq_some_iff, List.getElem?_eq_some_iff]
  refine ⟨fun h => ?_, fun h => ?_⟩
  · obtain ⟨hi, hc, -⟩ := h
    exact ⟨hi, hc⟩
  · obtain ⟨hi, hc⟩ := h
    refine ⟨hi, hc, fun j hj he => ?_⟩
    have := (hn.getElem_inj_iff).1 (he.trans hc.symm)
    omega

namespace Grammar

/-- Whether edits lead from the empty grammar to this one. -/
def Reachable (g : Grammar) : Prop := ∃ edits, (empty.run edits).1 = g

/-- Whether all that an alternative names is declared. -/
def Declares (g : Grammar) : Alternative → Prop
  | .letter t => t ∈ g.terminals
  | .pair b c => b ∈ g.nonterminals ∧ c ∈ g.nonterminals

/-- The changes a grammar is open to. -/
inductive Admits (g : Grammar) : Change → Prop
  | terminal {c : Char} (case : Symbol.ofChar? c = some (.terminal c)) (new : c ∉ g.terminals) :
    Admits g (.terminalAdded c)
  | nonterminal {c : Char} (case : Symbol.ofChar? c = some (.nonterminal c))
    (new : c ∉ g.nonterminals) : Admits g (.nonterminalAdded c)
  | start {c : Char} (declared : c ∈ g.nonterminals) : Admits g (.startSet c)
  | production {lhs : Char} {a : Alternative} (declared : lhs ∈ g.nonterminals)
    (parts : g.Declares a) (new : a ∉ g.alternatives lhs) : Admits g (.productionAdded lhs a)
  | clear : Admits g .cleared

/-- What every change keeps. -/
structure Consistent (g : Grammar) : Prop where
  terminals_nodup : g.terminals.Nodup
  nonterminals_nodup : g.nonterminals.Nodup
  terminal_case : ∀ c ∈ g.terminals, Symbol.ofChar? c = some (.terminal c)
  nonterminal_case : ∀ c ∈ g.nonterminals, Symbol.ofChar? c = some (.nonterminal c)
  start_mem : ∀ c, g.start = some c → c ∈ g.nonterminals
  alternatives_nodup : ∀ c, (g.alternatives c).Nodup
  declares : ∀ c, ∀ a ∈ g.alternatives c, g.Declares a

variable {g : Grammar}

/-! ## One edit -/

theorem declares_of_readAlternative? {rhs : String} {a : Alternative}
    (h : g.readAlternative? rhs = some a) : g.Declares a := by
  unfold readAlternative? at h
  split at h
  · split_ifs at h with ht
    cases h
    exact ht
  · split_ifs at h with hbc
    cases h
    exact hbc
  · cases h

theorem admits_of_check {e : Edit} {change : Change} (h : g.check e = .ok change) :
    g.Admits change := by
  cases e with
  | addTerminal c =>
    simp only [check] at h
    split_ifs at h with hc
    cases h
    exact .terminal hc.1 hc.2
  | addNonterminal c =>
    simp only [check] at h
    split_ifs at h with hc
    cases h
    exact .nonterminal hc.1 hc.2
  | setStart c =>
    simp only [check] at h
    split_ifs at h with hc
    cases h
    exact .start hc
  | addProduction lhs rhs =>
    simp only [check] at h
    split_ifs at h with hl
    split at h
    · cases h
    · rename_i a ha
      split_ifs at h with hn
      cases h
      exact .production hl (declares_of_readAlternative? ha) hn
  | clear =>
    cases h
    exact .clear

theorem consistent_empty : empty.Consistent where
  terminals_nodup := List.nodup_nil
  nonterminals_nodup := List.nodup_nil
  terminal_case := by simp [empty]
  nonterminal_case := by simp [empty, nonterminals]
  start_mem := by simp [empty]
  alternatives_nodup := by simp [empty, alternatives]
  declares := by simp [empty, alternatives]

theorem Declares.mono {g' : Grammar} {a : Alternative} (h : g.Declares a)
    (ht : g.terminals ⊆ g'.terminals) (hn : g.nonterminals ⊆ g'.nonterminals) : g'.Declares a := by
  cases a with
  | letter t => exact ht h
  | pair b c => exact ⟨hn h.1, hn h.2⟩

theorem Consistent.commit (h : g.Consistent) {change : Change} (ha : g.Admits change) :
    (g.commit change).Consistent := by
  cases ha with
  | @terminal c hc hn =>
    refine ⟨?_, h.nonterminals_nodup, ?_, h.nonterminal_case, h.start_mem, h.alternatives_nodup, ?_⟩
    · exact h.terminals_nodup.append (List.nodup_singleton c) (List.disjoint_singleton.2 hn)
    · intro x hx
      rcases List.mem_append.1 hx with hx | hx
      · exact h.terminal_case x hx
      · rw [List.mem_singleton.1 hx]
        exact hc
    · intro x a hx
      exact (h.declares x a hx).mono (List.subset_append_left _ _) (List.Subset.refl _)
  | @nonterminal c hc hn =>
    refine ⟨h.terminals_nodup, ?_, h.terminal_case, ?_, ?_, ?_, ?_⟩
    · rw [nonterminals_commit_nonterminalAdded]
      exact h.nonterminals_nodup.append (List.nodup_singleton c) (List.disjoint_singleton.2 hn)
    · intro x hx
      rw [nonterminals_commit_nonterminalAdded] at hx
      rcases List.mem_append.1 hx with hx | hx
      · exact h.nonterminal_case x hx
      · rw [List.mem_singleton.1 hx]
        exact hc
    · intro x hx
      rw [nonterminals_commit_nonterminalAdded]
      exact List.mem_append_left _ (h.start_mem x hx)
    · intro x
      rw [alternatives_commit_nonterminalAdded]
      exact h.alternatives_nodup x
    · intro x a hx
      rw [alternatives_commit_nonterminalAdded] at hx
      refine (h.declares x a hx).mono (List.Subset.refl _) ?_
      rw [nonterminals_commit_nonterminalAdded]
      exact List.subset_append_left _ _
  | start hc =>
    exact ⟨h.terminals_nodup, h.nonterminals_nodup, h.terminal_case, h.nonterminal_case,
      fun x hx => by cases hx; exact hc, h.alternatives_nodup, h.declares⟩
  | @production lhs a hl hd hn =>
    have hN := nonterminals_commit_productionAdded g lhs a
    have hA := alternatives_commit_productionAdded g a hl
    refine ⟨h.terminals_nodup, hN ▸ h.nonterminals_nodup, h.terminal_case,
      hN ▸ h.nonterminal_case, fun x hx => hN ▸ h.start_mem x hx, fun x => ?_, fun x b hb => ?_⟩
    · rw [hA]
      split_ifs with hx
      · subst hx
        exact (h.alternatives_nodup x).append (List.nodup_singleton a)
          (List.disjoint_singleton.2 hn)
      · exact h.alternatives_nodup x
    · have hb' : g.Declares b := by
        rw [hA] at hb
        split_ifs at hb with hx
        · rcases List.mem_append.1 hb with hb | hb
          · exact h.declares x b hb
          · exact List.mem_singleton.1 hb ▸ hd
        · exact h.declares x b hb
      exact hb'.mono (List.Subset.refl _) (hN ▸ List.Subset.refl _)
  | clear => exact consistent_empty

theorem Consistent.apply (h : g.Consistent) (e : Edit) : (g.apply e).1.Consistent := by
  unfold Grammar.apply
  split
  · rename_i change hc
    exact h.commit (admits_of_check hc)
  · exact h

/-! ## A run of edits -/

theorem Consistent.run (h : g.Consistent) (edits : List Edit) : (g.run edits).1.Consistent := by
  induction edits generalizing g with
  | nil => exact h
  | cons e rest ih => exact ih (h.apply e)

theorem Reachable.consistent (h : g.Reachable) : g.Consistent := by
  obtain ⟨edits, rfl⟩ := h
  exact consistent_empty.run edits

/-! ## The views of a grammar -/

theorem mem_nonterminals_of_mem_alternatives {c : Char} {a : Alternative}
    (h : a ∈ g.alternatives c) : c ∈ g.nonterminals := by
  unfold alternatives at h
  split at h
  · rename_i group hg
    have hs : group.symbol = c := by simpa using List.find?_some hg
    exact hs ▸ List.mem_map_of_mem (List.mem_of_find?_eq_some hg)
  · cases h

theorem mem_nonterminals_of_alternatives_ne_nil {c : Char} (h : g.alternatives c ≠ []) :
    c ∈ g.nonterminals := by
  obtain ⟨a, ha⟩ := List.exists_mem_of_ne_nil _ h
  exact mem_nonterminals_of_mem_alternatives ha

theorem alternatives_symbol (hn : g.nonterminals.Nodup) {group : RuleGroup}
    (h : group ∈ g.groups) : g.alternatives group.symbol = group.alternatives := by
  unfold alternatives
  cases hf : g.groups.find? (·.symbol == group.symbol) with
  | none => exact absurd (List.find?_eq_none.1 hf group h) (by simp)
  | some other =>
    have hs : other.symbol = group.symbol := by simpa using List.find?_some hf
    rw [List.inj_on_of_nodup_map hn (List.mem_of_find?_eq_some hf) h hs]

theorem mem_rules_iff (hn : g.nonterminals.Nodup) {c : Char} {a : Alternative} :
    (c, a) ∈ g.rules ↔ a ∈ g.alternatives c := by
  simp only [rules, List.mem_flatMap, List.mem_map, Prod.mk.injEq]
  refine ⟨fun h => ?_, fun h => ?_⟩
  · obtain ⟨group, hg, b, hb, rfl, rfl⟩ := h
    rwa [alternatives_symbol hn hg]
  · obtain ⟨group, hg, rfl⟩ := List.mem_map.1 (mem_nonterminals_of_mem_alternatives h)
    rw [alternatives_symbol hn hg] at h
    exact ⟨group, hg, a, h, rfl, rfl⟩

theorem position?_eq_some_iff (hn : g.nonterminals.Nodup) {c : Char} {i : Nat} :
    g.position? c = some i ↔ g.nonterminals[i]? = some c :=
  idxOf?_eq_some_iff_getElem? hn

/-! ## A sample -/

/-- Edits to a grammar in which `S` derives the words that fall into parts of one `a` and some `b`s,
and `U` derives nothing. -/
def sampleEdits : List Edit :=
  [.addTerminal 'a', .addTerminal 'b', .addNonterminal 'S', .addNonterminal 'A',
    .addNonterminal 'B', .addNonterminal 'U', .setStart 'S', .addProduction 'S' "AB",
    .addProduction 'S' "SS", .addProduction 'A' "a", .addProduction 'B' "b",
    .addProduction 'B' "BB", .addProduction 'U' "UU"]

def sample : Grammar := (empty.run sampleEdits).1

theorem reachable_sample : sample.Reachable := ⟨sampleEdits, rfl⟩

end Grammar

end Chomsky
