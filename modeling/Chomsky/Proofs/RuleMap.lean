import Chomsky.Proofs.History

/-!
# The map of the productions

The alternatives of a grammar form a map with an entry for each left-hand side in use. The changes
alone build that map: a production begins or extends one entry, and no other change but a clearing
touches any. What they build is what the grammar holds (`Tracks.run`), so the entries belong to
declared nonterminals, none is empty, and the productions of a grammar, listed nonterminal by
nonterminal, are those of the map, each once (`run_invariant`).
-/

namespace Chomsky

/-- The alternatives of each left-hand side in use. -/
abbrev RuleMap := Char → Option (List Alternative)

namespace RuleMap

/-- A production goes behind the alternatives of its left-hand side, and gives it an entry if there
is none. -/
def after (m : RuleMap) : Change → RuleMap
  | .productionAdded lhs a => fun c => if c = lhs then some ((m c).getD [] ++ [a]) else m c
  | .cleared => fun _ => none
  | _ => m

/-- The map that the accepted edits of a run build. -/
def ofAnswers (answers : List (Except GrammarError Change)) : RuleMap :=
  (answers.filterMap Except.toOption).foldl after fun _ => none

/-- Whether a map has exactly the alternatives of a grammar, and no entry where there are none. -/
def Tracks (m : RuleMap) (g : Grammar) : Prop :=
  ∀ c, m c = if g.alternatives c = [] then none else some (g.alternatives c)

variable {m : RuleMap} {g : Grammar}

theorem Tracks.getD (h : m.Tracks g) (c : Char) : (m c).getD [] = g.alternatives c := by
  rw [h c]
  split_ifs with hc
  · exact hc.symm
  · rfl

theorem Tracks.eq_some_iff (h : m.Tracks g) {c : Char} {l : List Alternative} :
    m c = some l ↔ g.alternatives c = l ∧ l ≠ [] := by
  rw [h c]
  split_ifs with hc
  · simp [hc]
  · simp only [Option.some.injEq]
    exact ⟨fun hl => ⟨hl, hl ▸ hc⟩, And.left⟩

theorem tracks_empty : Tracks (fun _ => none) Grammar.empty := fun _ => rfl

theorem Tracks.commit (h : m.Tracks g) {change : Change} (ha : g.Admits change) :
    (m.after change).Tracks (g.commit change) := by
  cases ha with
  | nonterminal =>
    intro c
    rw [Grammar.alternatives_commit_nonterminalAdded]
    exact h c
  | @production lhs a hl =>
    intro c
    rw [Grammar.alternatives_commit_productionAdded g a hl]
    simp only [after, h.getD]
    split_ifs with hc hn hn
    · simp at hn
    · rfl
    · exact (h c).trans (if_pos hn)
    · exact (h c).trans (if_neg hn)
  | clear => exact tracks_empty
  | _ => exact h

theorem Tracks.run (h : m.Tracks g) (edits : List Edit) :
    (((g.run edits).2.filterMap Except.toOption).foldl after m).Tracks (g.run edits).1 := by
  induction g, edits using Grammar.run_induction generalizing m with
  | nil => exact h
  | refused hc ih =>
    rw [Grammar.run_cons_of_error hc]
    exact ih h
  | accepted hc ih =>
    rw [Grammar.run_cons_of_ok hc]
    exact ih (h.commit (Grammar.admits_of_check hc))

end RuleMap

namespace Grammar

variable {g : Grammar} {m : RuleMap}

/-! ## The list of the productions -/

theorem Consistent.disjoint (hg : g.Consistent) : g.terminals.Disjoint g.nonterminals := by
  intro c ht hn
  have := (hg.terminal_case c ht).symm.trans (hg.nonterminal_case c hn)
  cases this

theorem Consistent.rules_nodup (hg : g.Consistent) : g.rules.Nodup := by
  unfold rules
  refine List.nodup_flatMap.2 ⟨fun group hm => ?_, ?_⟩
  · have hn := hg.alternatives_nodup group.symbol
    rw [alternatives_symbol hg.nonterminals_nodup hm] at hn
    exact hn.map fun a b h => (Prod.mk.inj h).2
  · -- different groups have different left-hand sides
    have hn : g.groups.Pairwise fun x y => x.symbol ≠ y.symbol :=
      List.pairwise_map.1 hg.nonterminals_nodup
    refine hn.imp fun hne p hx hy => ?_
    obtain ⟨a, -, rfl⟩ := List.mem_map.1 hx
    obtain ⟨b, -, hb⟩ := List.mem_map.1 hy
    exact hne (Prod.mk.inj hb).1.symm

theorem hasProductions_iff_rules : g.hasProductions = true ↔ g.rules ≠ [] := by
  simp [hasProductions, rules, List.flatMap_eq_nil_iff]

theorem Consistent.hasProductions_iff (hg : g.Consistent) :
    g.hasProductions = true ↔ ∃ c a, a ∈ g.alternatives c := by
  rw [hasProductions_iff_rules]
  refine ⟨fun h => ?_, fun ⟨c, a, ha⟩ => ?_⟩
  · obtain ⟨⟨c, a⟩, hr⟩ := List.exists_mem_of_ne_nil _ h
    exact ⟨c, a, (mem_rules_iff hg.nonterminals_nodup).1 hr⟩
  · exact List.ne_nil_of_mem ((mem_rules_iff hg.nonterminals_nodup).2 ha)

theorem Consistent.mem_rules_iff_entry (hg : g.Consistent) (hm : m.Tracks g) {c : Char}
    {a : Alternative} : (c, a) ∈ g.rules ↔ ∃ l, m c = some l ∧ a ∈ l := by
  simp only [mem_rules_iff hg.nonterminals_nodup, hm.eq_some_iff]
  refine ⟨fun ha => ⟨_, ⟨rfl, List.ne_nil_of_mem ha⟩, ha⟩, ?_⟩
  rintro ⟨_, ⟨rfl, -⟩, ha⟩
  exact ha

theorem Consistent.hasProductions_iff_entry (hg : g.Consistent) (hm : m.Tracks g) :
    g.hasProductions = true ↔ ∃ c l, m c = some l ∧ l ≠ [] := by
  rw [hasProductions_iff_rules]
  refine ⟨fun hne => ?_, fun ⟨c, l, hl, hne⟩ => ?_⟩
  · obtain ⟨⟨c, a⟩, hca⟩ := List.exists_mem_of_ne_nil _ hne
    obtain ⟨l, hl, ha⟩ := (hg.mem_rules_iff_entry hm).1 hca
    exact ⟨c, l, hl, List.ne_nil_of_mem ha⟩
  · obtain ⟨a, ha⟩ := List.exists_mem_of_ne_nil _ hne
    exact List.ne_nil_of_mem ((hg.mem_rules_iff_entry hm).2 ⟨l, hl, ha⟩)

theorem Consistent.of_entry (hg : g.Consistent) (hm : m.Tracks g) {c : Char} {l : List Alternative}
    (h : m c = some l) :
    c ∈ g.nonterminals ∧ l ≠ [] ∧ l.Nodup ∧ ∀ a ∈ l, g.Declares a := by
  obtain ⟨rfl, hne⟩ := hm.eq_some_iff.1 h
  obtain ⟨a, ha⟩ := List.exists_mem_of_ne_nil _ hne
  exact ⟨mem_nonterminals_of_mem_alternatives ha, hne, hg.alternatives_nodup c, hg.declares c⟩

theorem Consistent.isEmpty_iff (hg : g.Consistent) : g.isEmpty = true ↔ g = empty := by
  refine ⟨fun h => ?_, ?_⟩
  · simp only [isEmpty, Bool.and_eq_true, List.isEmpty_iff] at h
    obtain ⟨⟨ht, hn⟩, -⟩ := h
    have hgroups : g.groups = [] := List.map_eq_nil_iff.1 hn
    have hstart : g.start = none := by
      rcases hs : g.start with _ | c
      · rfl
      · have := hg.start_mem c hs
        rw [hn] at this
        cases this
    calc g = ⟨g.terminals, g.groups, g.start⟩ := rfl
      _ = empty := by rw [ht, hgroups, hstart, empty]
  · rintro rfl
    rfl

/-! ## After any run of edits -/

/-- Whatever edits a grammar has been through, its alphabets are disjoint, have no repetitions and
letters of the right case only, its start symbol is declared, and each entry of the map that the
accepted edits build is a list of different declared alternatives, not empty, of a declared
nonterminal. The list of the productions has every production of that map once; there are
productions exactly if it is not empty, and the grammar is empty exactly if it is the one that all
runs begin with. -/
theorem run_invariant (edits : List Edit) :
    let g := (empty.run edits).1
    let m := RuleMap.ofAnswers (empty.run edits).2
    g.terminals.Nodup ∧ g.nonterminals.Nodup ∧ g.terminals.Disjoint g.nonterminals
      ∧ (∀ c ∈ g.terminals, Symbol.ofChar? c = some (.terminal c))
      ∧ (∀ c ∈ g.nonterminals, Symbol.ofChar? c = some (.nonterminal c))
      ∧ (∀ c, g.start = some c → c ∈ g.nonterminals)
      ∧ (∀ c l, m c = some l → c ∈ g.nonterminals ∧ l ≠ [] ∧ l.Nodup ∧ ∀ a ∈ l, g.Declares a)
      ∧ (∀ c, g.alternatives c = (m c).getD [])
      ∧ g.rules.Nodup ∧ (∀ c a, (c, a) ∈ g.rules ↔ ∃ l, m c = some l ∧ a ∈ l)
      ∧ (g.hasProductions = true ↔ g.rules ≠ [])
      ∧ (g.hasProductions = true ↔ ∃ c l, m c = some l ∧ l ≠ [])
      ∧ (g.isEmpty = true ↔ g = empty) := by
  intro g m
  have hg : g.Consistent := consistent_empty.run edits
  have hm : m.Tracks g := RuleMap.tracks_empty.run edits
  exact ⟨hg.terminals_nodup, hg.nonterminals_nodup, hg.disjoint, hg.terminal_case,
    hg.nonterminal_case, hg.start_mem, fun _ _ => hg.of_entry hm, fun c => (hm.getD c).symm,
    hg.rules_nodup, fun _ _ => hg.mem_rules_iff_entry hm, hasProductions_iff_rules,
    hg.hasProductions_iff_entry hm, hg.isEmpty_iff⟩

end Grammar

end Chomsky
