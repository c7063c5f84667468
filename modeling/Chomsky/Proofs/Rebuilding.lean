import Chomsky.Proofs.Acceptance
import Chomsky.Proofs.Description

/-!
# Definitions of a grammar

Every reachable grammar can be given by definitions: its letters, its start symbol and its
production lines with `=` for `::=`, in any order of the nonterminals. The lines read as the pairs
they were written from (`readProduction?_productionText`), so the definitions are sound
(`sound_definitions`), and the edits behind them describe the grammar again (`grammar_definitions`).
-/

namespace Chomsky

/-- The text with `=` for every `::=`. -/
def shortenSigns : List Char → List Char
  | ':' :: ':' :: '=' :: rest => '=' :: shortenSigns rest
  | c :: rest => c :: shortenSigns rest
  | [] => []

theorem shortenSigns_cons {c : Char} (h : c ≠ ':') (rest : List Char) :
    shortenSigns (c :: rest) = c :: shortenSigns rest := by
  rw [shortenSigns]
  rintro _ rfl
  exact absurd rfl h

theorem shortenSigns_of_not_mem {text : List Char} (h : ':' ∉ text) : shortenSigns text = text := by
  induction text with
  | nil => rfl
  | cons c text ih =>
    rw [List.mem_cons, not_or] at h
    rw [shortenSigns_cons (Ne.symm h.1), ih h.2]

namespace Grammar

variable {g : Grammar} {c : Char} {order : List Char}

/-- The production line of `c` as a text of definitions. -/
def productionText (g : Grammar) (c : Char) : String :=
  String.ofList (shortenSigns (g.productions c).toList)

/-- The definitions that spell a grammar out, with its production lines in this order. -/
def definitions (g : Grammar) (order : List Char) : Definitions where
  terminals := g.terminals
  nonterminals := g.nonterminals
  start := g.start
  productions := order.map g.productionText

/-! ## Production lines are read back -/

theorem Consistent.toList_productionText (hg : g.Consistent) (h : g.alternatives c ≠ []) :
    (g.productionText c).toList = c :: '=' :: g.bars c := by
  have hc : c ≠ ':' := by
    rintro rfl
    exact hg.delimiter_not_mem_nonterminals (by decide) (mem_nonterminals_of_alternatives_ne_nil h)
  have hbars : ':' ∉ g.bars c := hg.delimiter_not_mem_bars (by decide) (by decide)
  rw [productionText, String.toList_ofList, toList_productions h, shortenSigns_cons hc]
  simp only [shortenSigns, shortenSigns_of_not_mem hbars]

theorem Consistent.readPieces_bars (hg : g.Consistent) (h : g.alternatives c ≠ []) :
    readPieces (g.bars c) = (g.alternatives c).map (·.text) := by
  have hbar : ∀ p ∈ (g.alternatives c).map fun a => a.text.toList, '|' ∉ p := fun p hp =>
    not_mem_of_symbols (hg.symbol_of_mem_piece hp) (by decide)
  rw [readPieces, bars, List.splitOn_intercalate '|' hbar (by simpa using h), List.map_map]
  refine List.map_congr_left fun a ha => ?_
  have hblank : ∀ x ∈ a.text.toList, isBlank x = false := fun x hx =>
    not_isBlank_of_symbol (hg.symbol_of_mem_text ha x hx)
  rw [Function.comp_apply, trimBlanks_of_not_isBlank hblank, String.ofList_toList]

theorem Consistent.readProduction?_productionText (hg : g.Consistent) (h : g.alternatives c ≠ []) :
    readProduction? (g.productionText c) = some (c, (g.alternatives c).map (·.text)) := by
  have hc := mem_nonterminals_of_alternatives_ne_nil h
  have hsign : '=' ∉ [c] := by
    rw [List.mem_singleton]
    rintro rfl
    exact hg.delimiter_not_mem_nonterminals (by decide) hc
  have hblank : ∀ x ∈ [c], isBlank x = false := by
    simpa using not_isBlank_of_symbol (hg.symbol_of_mem_nonterminals hc)
  refine readProduction?_eq_some_iff.2 ⟨[c], g.bars c, hg.toList_productionText h, hsign, ?_, ?_⟩
  · exact trimBlanks_of_not_isBlank hblank
  · exact (hg.readPieces_bars h).symm

/-! ## The definitions are sound -/

theorem Consistent.rules_definitions (hg : g.Consistent) (ho : ∀ c ∈ order, g.alternatives c ≠ []) :
    (g.definitions order).rules =
      order.flatMap fun c => ((g.alternatives c).map Alternative.text).map (c, ·) := by
  have hread : (g.definitions order).productions.filterMap readProduction? =
      order.map fun c => (c, (g.alternatives c).map Alternative.text) := by
    rw [definitions, List.filterMap_map, ← List.filterMap_eq_map]
    refine List.filterMap_congr fun c hc => ?_
    rw [Function.comp_apply, Function.comp_apply, hg.readProduction?_productionText (ho c hc)]
  rw [Definitions.rules, hread, List.flatMap_map]

theorem Consistent.normal_definitions (hg : g.Consistent) {a : Alternative} {c : Char}
    (ha : a ∈ g.alternatives c) : (g.definitions order).Normal a.text.toList := by
  have hd := hg.declares c a ha
  cases a with
  | letter t =>
    rw [Alternative.text, String.toList_ofList]
    exact ⟨hd, hg.terminal_case t hd⟩
  | pair b d =>
    rw [Alternative.text, String.toList_ofList]
    exact ⟨⟨hd.1, hg.nonterminal_case b hd.1⟩, hd.2, hg.nonterminal_case d hd.2⟩

theorem Consistent.sound_definitions (hg : g.Consistent) (hn : order.Nodup)
    (ho : ∀ c ∈ order, g.alternatives c ≠ []) : (g.definitions order).Sound where
  terminals_nodup := hg.terminals_nodup
  terminal_case := hg.terminal_case
  nonterminals_nodup := hg.nonterminals_nodup
  nonterminal_case := hg.nonterminal_case
  start c hs := ⟨hg.start_mem c hs, hg.nonterminal_case c (hg.start_mem c hs)⟩
  readable := by
    intro text ht
    obtain ⟨c, hc, rfl⟩ := List.mem_map.1 ht
    rw [hg.readProduction?_productionText (ho c hc)]
    exact Option.some_ne_none _
  rules_nodup := by
    rw [hg.rules_definitions ho, List.nodup_flatMap]
    refine ⟨fun c _ => ?_, hn.imp fun hne => ?_⟩
    · have htexts := (hg.alternatives_nodup c).map text_injective
      exact htexts.map fun _ _ he => (Prod.mk.inj he).2
    · simp only [Function.onFun, List.disjoint_left, List.mem_map]
      rintro _ ⟨rhs, -, rfl⟩ ⟨rhs', -, he⟩
      exact hne (Prod.mk.inj he).1.symm
  rules_proper := by
    intro rule hm
    simp only [hg.rules_definitions ho, List.mem_flatMap, List.mem_map] at hm
    obtain ⟨c, -, _, ⟨a, ha, rfl⟩, rfl⟩ := hm
    have hc := mem_nonterminals_of_mem_alternatives ha
    exact ⟨⟨hc, hg.nonterminal_case c hc⟩, hg.normal_definitions ha⟩

/-! ## The grammar again -/

/-- Among the right-hand sides of many letters, each letter finds its own. -/
theorem filterMap_flatMap_pairs {f : Char → List String} (hn : order.Nodup) (c : Char) :
    (order.flatMap fun d => (f d).map (d, ·)).filterMap
        (fun (lhs, rhs) => if lhs = c then some rhs else none) =
      if c ∈ order then f c else [] := by
  induction order with
  | nil => rfl
  | cons d order ih =>
    obtain ⟨hd, hn⟩ := List.nodup_cons.1 hn
    rw [List.flatMap_cons, List.filterMap_append, ih hn, List.filterMap_map]
    rcases eq_or_ne d c with rfl | hdc
    · simp [hd]
    · simp [hdc, hdc.symm]

theorem Consistent.describes_definitions (hg : g.Consistent) (hn : order.Nodup)
    (ho : ∀ c, c ∈ order ↔ g.alternatives c ≠ []) : g.Describes (g.definitions order).edits where
  terminals := (g.definitions order).terminals_edits.symm
  nonterminals := (g.definitions order).nonterminals_edits.symm
  start := (g.definitions order).start_edits.symm
  alternatives c := by
    rw [Definitions.rightHandSides_edits, hg.rules_definitions fun c => (ho c).1,
      filterMap_flatMap_pairs hn]
    split_ifs with h
    · rfl
    · rw [not_not.1 (mt (ho c).2 h), List.map_nil]

/-- A reachable grammar is what its letters, its start symbol and its production lines define, with
`=` for `::=` and the lines of the nonterminals that have alternatives in any order. -/
theorem grammar_definitions (hg : g.Reachable)
    (ho : order.Perm (g.nonterminals.filter fun c => !(g.alternatives c).isEmpty)) :
    (g.definitions order).grammar = .ok g := by
  have hc := hg.consistent
  have hn : order.Nodup := ho.nodup_iff.2 (hc.nonterminals_nodup.filter _)
  have hmem : ∀ c, c ∈ order ↔ g.alternatives c ≠ [] := fun c => by
    rw [ho.mem_iff, List.mem_filter, Bool.not_eq_true', List.isEmpty_eq_false_iff]
    exact and_iff_right_of_imp mem_nonterminals_of_alternatives_ne_nil
  have hsound := hc.sound_definitions hn fun c => (hmem c).1
  obtain ⟨g', hgrammar, hc', hd'⟩ := hsound.grammar
  have hd := hc.describes_definitions hn hmem
  -- both grammars are consistent, and the same edits describe them
  rw [hgrammar, hd'.eq_ofHistory hc', ← hd.eq_ofHistory hc]

/-- Definitions of the sample, the lines not in the order of its nonterminals. -/
def sampleDefinitions : Definitions where
  terminals := ['a', 'b']
  nonterminals := ['S', 'A', 'B', 'U']
  start := some 'S'
  productions := ["U=UU", "B=b|BB", "S=AB|SS", "A=a"]

theorem grammar_sampleDefinitions : sample.Reachable
    ∧ ['U', 'B', 'S', 'A'].Perm
      (sample.nonterminals.filter fun c => !(sample.alternatives c).isEmpty)
    ∧ sampleDefinitions.grammar = .ok sample := by
  have hr := reachable_sample
  have ho : ['U', 'B', 'S', 'A'].Perm
      (sample.nonterminals.filter fun c => !(sample.alternatives c).isEmpty) := by decide +kernel
  have hd : sample.definitions ['U', 'B', 'S', 'A'] = sampleDefinitions := by
    have hp : ['U', 'B', 'S', 'A'].map sample.productionText = sampleDefinitions.productions := by
      decide +kernel
    have ht : sample.terminals = ['a', 'b'] := by decide +kernel
    have hN : sample.nonterminals = ['S', 'A', 'B', 'U'] := by decide +kernel
    have hs : sample.start = some 'S' := by decide +kernel
    rw [definitions, hp, ht, hN, hs]
    rfl
  refine ⟨hr, ho, ?_⟩
  rw [← hd]
  exact grammar_definitions hr ho

end Grammar

end Chomsky
