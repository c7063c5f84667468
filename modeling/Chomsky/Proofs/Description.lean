import Chomsky.Proofs.Delimiters
import Chomsky.Proofs.History

/-!
# The description determines the grammar

The text of a grammar is read from left to right: each alphabet ends at its closing brace and falls
into letters at the commas (`commas_inj`), the start symbol is the next character, and the rest
falls into lines (`lines_inj`), each of which falls into its left-hand side and the alternatives
between bars (`productionLine_inj`). None of these delimiters is ever declared, so two grammars with
one text agree in everything (`describe_eq_iff`).
-/

namespace Chomsky

/-! ## Pieces with a delimiter between them -/

section Intercalate

variable {x : Char} {pieces pieces' : List (List Char)}

theorem mem_intercalate {c : Char} :
    ∀ {pieces : List (List Char)}, c ∈ [x].intercalate pieces → c = x ∨ ∃ p ∈ pieces, c ∈ p
  | [], h => by simp at h
  | [p], h => .inr ⟨p, List.mem_cons_self, by simpa using h⟩
  | p :: q :: pieces, h => by
    rw [List.intercalate_cons_cons] at h
    simp only [List.mem_append, List.mem_singleton] at h
    rcases h with (h | h) | h
    · exact .inr ⟨p, List.mem_cons_self, h⟩
    · exact .inl h
    · rcases mem_intercalate h with h | ⟨r, hr, h⟩
      · exact .inl h
      · exact .inr ⟨r, List.mem_cons_of_mem p hr, h⟩

theorem intercalate_inj (hp : ∀ p ∈ pieces, x ∉ p) (hp' : ∀ p ∈ pieces', x ∉ p)
    (hne : pieces ≠ []) (hne' : pieces' ≠ [])
    (h : [x].intercalate pieces = [x].intercalate pieces') : pieces = pieces' := by
  rw [← List.splitOn_intercalate x hp hne, h, List.splitOn_intercalate x hp' hne']

theorem lines_inj (hp : ∀ p ∈ pieces, x ∉ p) (hp' : ∀ p ∈ pieces', x ∉ p)
    (h : pieces.flatMap (· ++ [x]) = pieces'.flatMap (· ++ [x])) : pieces = pieces' := by
  have hsplit := splitOn_lines hp
  rw [h, splitOn_lines hp', List.append_cancel_right_eq] at hsplit
  exact hsplit.symm

end Intercalate

/-- Letters with commas between them. -/
def commas (letters : List Char) : List Char := [','].intercalate (letters.map ([·]))

theorem commas_ne_nil {letters : List Char} (h : letters ≠ []) : commas letters ≠ [] := by
  rcases letters with _ | ⟨c, _ | ⟨d, letters⟩⟩
  · exact absurd rfl h
  · simp [commas]
  · simp [commas]

theorem mem_commas {c : Char} {letters : List Char} (h : c ∈ commas letters) :
    c = ',' ∨ c ∈ letters := by
  refine (mem_intercalate h).imp_right fun ⟨p, hp, hc⟩ => ?_
  obtain ⟨d, hd, rfl⟩ := List.mem_map.1 hp
  rwa [List.mem_singleton.1 hc]

theorem commas_inj {u v : List Char} (hu : ',' ∉ u) (hv : ',' ∉ v) (h : commas u = commas v) :
    u = v := by
  have hpieces : ∀ {l : List Char}, ',' ∉ l → ∀ p ∈ l.map ([·]), ',' ∉ p := by
    intro l hl p hp
    obtain ⟨c, hc, rfl⟩ := List.mem_map.1 hp
    simpa using (ne_of_mem_of_not_mem hc hl).symm
  by_cases hu0 : u = []
  · subst hu0
    by_contra hv0
    exact commas_ne_nil (Ne.symm hv0) h.symm
  · by_cases hv0 : v = []
    · subst hv0
      exact absurd h (commas_ne_nil hu0)
    · have hmap : u.map ([·]) = v.map ([·]) :=
        intercalate_inj (hpieces hu) (hpieces hv) (by simpa using hu0) (by simpa using hv0) h
      exact List.map_injective_iff.2 (fun _ _ he => (List.cons.inj he).1) hmap

/-! ## Production lines -/

namespace Grammar

variable {g g' : Grammar} {c c' : Char}

/-- The letters of the alternatives of `c`, with bars between them. -/
def bars (g : Grammar) (c : Char) : List Char :=
  ['|'].intercalate ((g.alternatives c).map fun a => a.text.toList)

theorem toList_productions (h : g.alternatives c ≠ []) :
    (g.productions c).toList = c :: ':' :: ':' :: '=' :: g.bars c := by
  unfold productions
  split
  · contradiction
  · simp [toString, bars, Function.comp_def]

theorem Consistent.symbol_of_mem_piece (hg : g.Consistent) {p : List Char}
    (hp : p ∈ (g.alternatives c).map fun a => a.text.toList) :
    ∀ x ∈ p, Symbol.ofChar? x ≠ none := by
  obtain ⟨a, ha, rfl⟩ := List.mem_map.1 hp
  exact hg.symbol_of_mem_text ha

theorem Consistent.bars_inj (hg : g.Consistent) (hg' : g'.Consistent) (h : g.alternatives c ≠ [])
    (h' : g'.alternatives c' ≠ []) (he : g.bars c = g'.bars c') :
    g.alternatives c = g'.alternatives c' := by
  have hbar : '|' ∈ delimiters := by decide
  have hmap := intercalate_inj (fun p hp => not_mem_of_symbols (hg.symbol_of_mem_piece hp) hbar)
    (fun p hp => not_mem_of_symbols (hg'.symbol_of_mem_piece hp) hbar) (by simpa using h)
    (by simpa using h') he
  exact List.map_injective_iff.2 (fun _ _ hab => text_injective (String.toList_inj.1 hab)) hmap

theorem Consistent.delimiter_not_mem_bars (hg : g.Consistent) {x : Char} (hx : x ∈ delimiters)
    (hne : x ≠ '|') : x ∉ g.bars c := by
  intro hm
  rcases mem_intercalate hm with hm | ⟨p, hp, hm⟩
  · exact hne hm
  · exact not_mem_of_symbols (hg.symbol_of_mem_piece hp) hx hm

theorem Consistent.newline_not_mem_productions (hg : g.Consistent) (h : g.alternatives c ≠ []) :
    '\n' ∉ (g.productions c).toList := by
  have hnewline : '\n' ∈ delimiters := by decide
  have hbars : '\n' ∉ g.bars c := hg.delimiter_not_mem_bars hnewline (by decide)
  have hc : '\n' ≠ c := by
    rintro rfl
    exact hg.delimiter_not_mem_nonterminals hnewline (mem_nonterminals_of_alternatives_ne_nil h)
  simp [toList_productions h, hc, hbars]

theorem Consistent.productionLine_inj (hg : g.Consistent) (hg' : g'.Consistent)
    (h : g.alternatives c ≠ []) (h' : g'.alternatives c' ≠ [])
    (he : (g.productions c).toList = (g'.productions c').toList) :
    c = c' ∧ g.alternatives c = g'.alternatives c' := by
  rw [toList_productions h, toList_productions h'] at he
  simp only [List.cons.injEq, true_and] at he
  exact ⟨he.1, hg.bars_inj hg' h h' he.2⟩

/-! ## The whole text -/

/-- The production lines of a grammar. -/
def lines (g : Grammar) : List (List Char) :=
  (g.nonterminals.filter fun c => !(g.alternatives c).isEmpty).map fun c => (g.productions c).toList

theorem mem_lines_iff {line : List Char} : line ∈ g.lines ↔
    ∃ c, g.alternatives c ≠ [] ∧ (g.productions c).toList = line := by
  simp only [lines, List.mem_map, List.mem_filter, Bool.not_eq_true', List.isEmpty_eq_false_iff]
  exact exists_congr fun c => and_congr_left fun _ =>
    and_iff_right_of_imp mem_nonterminals_of_alternatives_ne_nil

theorem toList_describe (g : Grammar) : g.describe.toList =
    "G=(\x7b".toList ++ (commas g.terminals ++ '\x7d' :: (",\x7b".toList ++
      (commas g.nonterminals ++ '\x7d' :: (",".toList ++ g.start.getD '_' ::
        (",P)\nP=\x7b\n".toList ++ (g.lines.flatMap (· ++ ['\n']) ++ ['\x7d'])))))) := by
  simp [describe, alphabetText, toString, commas, lines, Function.comp_def, List.flatMap_map]

theorem Consistent.alternatives_eq_of_lines (hg : g.Consistent) (hg' : g'.Consistent)
    (hl : g.lines = g'.lines) (h : g.alternatives c ≠ []) :
    g.alternatives c = g'.alternatives c := by
  have hm : (g.productions c).toList ∈ g'.lines := hl ▸ mem_lines_iff.2 ⟨c, h, rfl⟩
  obtain ⟨d, hd, he⟩ := mem_lines_iff.1 hm
  obtain ⟨rfl, ha⟩ := hg.productionLine_inj hg' h hd he.symm
  exact ha

theorem Consistent.eq_of_lines (hg : g.Consistent) (hg' : g'.Consistent)
    (hl : g.lines = g'.lines) (c : Char) : g.alternatives c = g'.alternatives c := by
  by_cases h : g.alternatives c = []
  · by_contra hne
    have h' : g'.alternatives c ≠ [] := fun h' => hne (h.trans h'.symm)
    exact hne (hg'.alternatives_eq_of_lines hg hl.symm h').symm
  · exact hg.alternatives_eq_of_lines hg' hl h

theorem Consistent.start_getD_inj (hg : g.Consistent) (hg' : g'.Consistent)
    (h : g.start.getD '_' = g'.start.getD '_') : g.start = g'.start := by
  have hline : ∀ {g : Grammar}, g.Consistent → g.start ≠ some '_' := by
    intro g hg hs
    exact hg.delimiter_not_mem_nonterminals (by decide) (hg.start_mem '_' hs)
  rcases hs : g.start with _ | c <;> rcases hs' : g'.start with _ | c'
  · rfl
  · rw [hs, hs'] at h
    exact absurd (hs'.trans (congrArg some h.symm)) (hline hg')
  · rw [hs, hs'] at h
    exact absurd (hs.trans (congrArg some h)) (hline hg)
  · rw [hs, hs'] at h
    exact congrArg some h

theorem Consistent.brace_not_mem_commas (hg : g.Consistent) :
    '\x7d' ∉ commas g.terminals ∧ '\x7d' ∉ commas g.nonterminals := by
  have hbrace : '\x7d' ∈ delimiters := by decide
  refine ⟨fun hm => ?_, fun hm => ?_⟩
  · exact hg.delimiter_not_mem_terminals hbrace ((mem_commas hm).resolve_left (by decide))
  · exact hg.delimiter_not_mem_nonterminals hbrace ((mem_commas hm).resolve_left (by decide))

theorem Consistent.newline_not_mem_lines (hg : g.Consistent) {line : List Char}
    (hl : line ∈ g.lines) : '\n' ∉ line := by
  obtain ⟨c, hne, rfl⟩ := mem_lines_iff.1 hl
  exact hg.newline_not_mem_productions hne

/-- The text falls into its four parts at the first two closing braces. -/
theorem Consistent.parts_of_describe (hg : g.Consistent) (hg' : g'.Consistent)
    (h : g.describe = g'.describe) : commas g.terminals = commas g'.terminals
      ∧ commas g.nonterminals = commas g'.nonterminals
      ∧ g.start.getD '_' = g'.start.getD '_'
      ∧ g.lines.flatMap (· ++ ['\n']) = g'.lines.flatMap (· ++ ['\n']) := by
  have htext := congrArg String.toList h
  rw [toList_describe, toList_describe, List.append_cancel_left_eq,
    append_cons_inj hg.brace_not_mem_commas.1 hg'.brace_not_mem_commas.1,
    List.append_cancel_left_eq,
    append_cons_inj hg.brace_not_mem_commas.2 hg'.brace_not_mem_commas.2] at htext
  obtain ⟨ht, hn, hrest⟩ := htext
  rw [List.append_cancel_left_eq, List.cons.injEq, List.append_cancel_left_eq,
    List.append_cancel_right_eq] at hrest
  exact ⟨ht, hn, hrest.1, hrest.2⟩

theorem Consistent.eq_of_describe (hg : g.Consistent) (hg' : g'.Consistent)
    (h : g.describe = g'.describe) : g = g' := by
  have hcomma : ',' ∈ delimiters := by decide
  obtain ⟨ht, hn, hs, hl⟩ := hg.parts_of_describe hg' h
  refine hg.eq_of_views hg' ?_ ?_ (hg.start_getD_inj hg' hs) ?_
  · exact commas_inj (hg.delimiter_not_mem_terminals hcomma)
      (hg'.delimiter_not_mem_terminals hcomma) ht
  · exact commas_inj (hg.delimiter_not_mem_nonterminals hcomma)
      (hg'.delimiter_not_mem_nonterminals hcomma) hn
  · exact hg.eq_of_lines hg' (lines_inj (fun _ => hg.newline_not_mem_lines)
      (fun _ => hg'.newline_not_mem_lines) hl)

/-- Two reachable grammars have the same description exactly if they are equal, which is to say that
their alphabets, their start symbols and the alternatives of every nonterminal are the same and in
the same order. -/
theorem describe_eq_iff (hg : g.Reachable) (hg' : g'.Reachable) :
    (g.describe = g'.describe ↔ g = g')
      ∧ (g = g' ↔ g.terminals = g'.terminals ∧ g.nonterminals = g'.nonterminals
        ∧ g.start = g'.start ∧ ∀ c, g.alternatives c = g'.alternatives c) := by
  have hc := hg.consistent
  have hc' := hg'.consistent
  refine ⟨⟨hc.eq_of_describe hc', fun h => by rw [h]⟩, fun h => ?_, fun ⟨ht, hn, hs, ha⟩ => ?_⟩
  · subst h
    exact ⟨rfl, rfl, rfl, fun _ => rfl⟩
  · exact hc.eq_of_views hc' ht hn hs ha

/-- The sample with the two alternatives of `S` added in the other order. -/
def sampleSwapped : Grammar :=
  (empty.run [.addTerminal 'a', .addTerminal 'b', .addNonterminal 'S', .addNonterminal 'A',
    .addNonterminal 'B', .addNonterminal 'U', .setStart 'S', .addProduction 'S' "SS",
    .addProduction 'S' "AB", .addProduction 'A' "a", .addProduction 'B' "b",
    .addProduction 'B' "BB", .addProduction 'U' "UU"]).1

theorem describe_sample : sample.Reachable ∧ sampleSwapped.Reachable
    ∧ sample.alternatives 'S' ≠ sampleSwapped.alternatives 'S'
    ∧ sample.describe ≠ sampleSwapped.describe := by
  have hr : sampleSwapped.Reachable := ⟨_, rfl⟩
  have ha : sample.alternatives 'S' ≠ sampleSwapped.alternatives 'S' := by decide +kernel
  have hiff := describe_eq_iff reachable_sample hr
  exact ⟨reachable_sample, hr, ha, fun h => ha ((hiff.2.1 (hiff.1.1 h)).2.2.2 'S')⟩

end Grammar

end Chomsky
