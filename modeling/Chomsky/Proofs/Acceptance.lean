import Chomsky.Proofs.Failures

/-!
# Definitions that are accepted

Nothing is wrong with definitions exactly if they are sound (`failures_eq_nil_iff`): the letters
have the class of their alphabet and do not repeat, the start symbol is a nonterminal, every text of
a production can be read, and the rules that the texts spell are normal and do not repeat. The
requests of sound definitions are edits that are all accepted, so the grammar is the one that these
edits describe (`Sound.grammar`).
-/

namespace Chomsky

/-! ## Judgements without failures -/

section Judge

variable {α β : Type} {f : α → β} {place : α → Nat → Location}
  {verdict : List α → α → Option DefinitionError} {all : List α}

theorem judge_eq_nil_iff : judge place verdict all = [] ↔
    ∀ before x after, all = before ++ x :: after → verdict before x = none := by
  rw [judge, List.filterMap_eq_nil_iff]
  refine ⟨fun h before x after he => ?_, fun h ⟨x, k⟩ hm => ?_⟩
  · have hm : (x, before.length + 1) ∈ all.zipIdx 1 := by
      rw [List.mk_mem_zipIdx_iff_le_and_getElem?_sub]
      simp [he]
    have hnone := h _ hm
    rw [Option.map_eq_none_iff] at hnone
    simpa [he] using hnone
  · obtain ⟨-, hx⟩ := List.mk_mem_zipIdx_iff_le_and_getElem?_sub.1 hm
    obtain ⟨hlt, rfl⟩ := List.getElem?_eq_some_iff.1 hx
    have hsplit : all = all.take (k - 1) ++ all[k - 1] :: all.drop (k - 1 + 1) := by
      rw [← List.drop_eq_getElem_cons hlt, List.take_append_drop]
    simp only [h _ _ _ hsplit, Option.map_none]

theorem nodup_map_iff_not_mem_before : (all.map f).Nodup ↔
    ∀ before x after, all = before ++ x :: after → f x ∉ before.map f := by
  refine ⟨fun h before x after he hm => ?_, fun h => ?_⟩
  · rw [he, List.map_append, List.map_cons] at h
    exact List.disjoint_of_nodup_append h hm List.mem_cons_self
  · induction all with
    | nil => exact List.nodup_nil
    | cons y all ih =>
      refine List.nodup_cons.2 ⟨fun hy => ?_, ih fun before x after he hm => ?_⟩
      · obtain ⟨x, hx, hfx⟩ := List.mem_map.1 hy
        obtain ⟨before, after, rfl⟩ := List.append_of_mem hx
        exact h (y :: before) x after rfl (hfx ▸ List.mem_cons_self)
      · exact h (y :: before) x after (congrArg (y :: ·) he) (List.mem_cons_of_mem _ hm)

/-- What must have a property and be new is judged to be nothing wrong with if all of it has the
property and nothing repeats. -/
theorem judge_eq_nil_iff_nodup {P : β → Prop}
    (h : ∀ before x, verdict before x = none ↔ P (f x) ∧ f x ∉ before.map f) :
    judge place verdict all = [] ↔ (all.map f).Nodup ∧ ∀ y ∈ all.map f, P y := by
  simp only [judge_eq_nil_iff, h, nodup_map_iff_not_mem_before, List.forall_mem_map]
  refine ⟨fun hall => ⟨fun before x after he => (hall before x after he).2, fun x hx => ?_⟩,
    fun ⟨hn, hP⟩ before x after he => ⟨hP x (by simp [he]), hn before x after he⟩⟩
  obtain ⟨before, after, he⟩ := List.append_of_mem hx
  exact (hall before x after he).1

end Judge

theorem judge_letters_eq_nil_iff {part : Char → Symbol} {place : Char → Nat → Location}
    {letters : List Char} : judge place (letterVerdict part) letters = [] ↔
      letters.Nodup ∧ ∀ c ∈ letters, Symbol.ofChar? c = some (part c) := by
  have hiff : judge place (letterVerdict part) letters = [] ↔ (letters.map id).Nodup
      ∧ ∀ c ∈ letters.map id, Symbol.ofChar? c = some (part c) :=
    judge_eq_nil_iff_nodup fun before c => by simp [letterVerdict]
  rwa [List.map_id] at hiff

namespace Definitions

variable {d : Definitions}

/-- The rules that the texts of the productions spell. -/
def rules (d : Definitions) : List (Char × String) :=
  (d.productions.filterMap readProduction?).flatMap fun (lhs, pieces) => pieces.map (lhs, ·)

/-- The edits behind definitions whose texts can be read. -/
def edits (d : Definitions) : List Edit :=
  d.terminals.map .addTerminal ++ d.nonterminals.map .addNonterminal
    ++ d.start.toList.map .setStart ++ d.rules.map fun (lhs, rhs) => .addProduction lhs rhs

/-- Whether a nonterminal is to be rewritten to something normal. -/
def Proper (d : Definitions) : Except DefinitionError (Char × String) → Prop
  | .error _ => False
  | .ok (lhs, rhs) => d.IsNonterminal lhs ∧ d.Normal rhs.toList

/-- Definitions that have nothing wrong with them. -/
structure Sound (d : Definitions) : Prop where
  terminals_nodup : d.terminals.Nodup
  terminal_case : ∀ c ∈ d.terminals, Symbol.ofChar? c = some (.terminal c)
  nonterminals_nodup : d.nonterminals.Nodup
  nonterminal_case : ∀ c ∈ d.nonterminals, Symbol.ofChar? c = some (.nonterminal c)
  start : ∀ c, d.start = some c → d.IsNonterminal c
  readable : ∀ text ∈ d.productions, readProduction? text ≠ none
  rules_nodup : d.rules.Nodup
  rules_proper : ∀ rule ∈ d.rules, d.Proper (.ok rule)

/-! ## Sound definitions -/

theorem map_value_pairs (d : Definitions) :
    d.pairs.map (·.value) = d.productions.flatMap productionPairs := by
  conv_rhs => rw [← List.zipIdx_map_fst 1 d.productions, List.flatMap_map]
  simp only [pairs, List.map_flatMap, List.map_map, Function.comp_def, List.map_id']

theorem map_value_pairs_of_readable (h : ∀ text ∈ d.productions, readProduction? text ≠ none) :
    d.pairs.map (·.value) = d.rules.map .ok := by
  rw [map_value_pairs, rules]
  generalize d.productions = texts at h
  induction texts with
  | nil => rfl
  | cons text texts ih =>
    rw [List.forall_mem_cons] at h
    obtain ⟨⟨lhs, pieces⟩, hread⟩ := Option.ne_none_iff_exists'.1 h.1
    rw [List.flatMap_cons, ih h.2, List.filterMap_cons_some hread, List.flatMap_cons,
      List.map_append, productionPairs, hread, List.map_map]
    rfl

theorem readable_of_proper (h : ∀ pair ∈ d.pairs.map (·.value), d.Proper pair) :
    ∀ text ∈ d.productions, readProduction? text ≠ none := by
  intro text ht hread
  rw [map_value_pairs] at h
  refine h (.error (.malformed text)) (List.mem_flatMap.2 ⟨text, ht, ?_⟩)
  rw [productionPairs, hread]
  exact List.mem_singleton_self _

theorem pairVerdict_eq_none_iff
    (before : List (Located (Except DefinitionError (Char × String))))
    (pair : Located (Except DefinitionError (Char × String))) :
    d.pairVerdict before pair = none ↔ d.Proper pair.value ∧ pair.value ∉ before.map (·.value) := by
  obtain ⟨place, reason | ⟨lhs, rhs⟩⟩ := pair
  · simp [pairVerdict, Proper]
  · by_cases hl : d.IsNonterminal lhs
    · by_cases hn : d.Normal rhs.toList <;> simp [pairVerdict, Proper, hl, hn]
    · simp [pairVerdict, Proper, hl]

theorem judge_pairs_eq_nil_iff : judge (fun pair _ => pair.location) d.pairVerdict d.pairs = [] ↔
    (∀ text ∈ d.productions, readProduction? text ≠ none) ∧ d.rules.Nodup
      ∧ ∀ rule ∈ d.rules, d.Proper (.ok rule) := by
  have hiff : (∀ text ∈ d.productions, readProduction? text ≠ none) →
      ((d.pairs.map (·.value)).Nodup ↔ d.rules.Nodup) ∧
      ((∀ pair ∈ d.pairs.map (·.value), d.Proper pair) ↔
        ∀ rule ∈ d.rules, d.Proper (.ok rule)) := by
    intro hread
    rw [map_value_pairs_of_readable hread]
    exact ⟨List.nodup_map_iff fun _ _ => Except.ok.inj, List.forall_mem_map⟩
  rw [judge_eq_nil_iff_nodup pairVerdict_eq_none_iff]
  refine ⟨fun ⟨hn, hp⟩ => ?_, fun ⟨hread, hn, hp⟩ => ⟨(hiff hread).1.2 hn, (hiff hread).2.2 hp⟩⟩
  have hread := readable_of_proper hp
  exact ⟨hread, (hiff hread).1.1 hn, (hiff hread).2.1 hp⟩

theorem startFailures_eq_nil_iff :
    d.startFailures = [] ↔ ∀ c, d.start = some c → d.IsNonterminal c := by
  unfold startFailures
  rcases d.start with _ | c <;> simp

theorem failures_eq_nil_iff : d.failures = [] ↔ d.Sound := by
  simp only [failures, List.append_eq_nil_iff, judge_letters_eq_nil_iff, startFailures_eq_nil_iff,
    judge_pairs_eq_nil_iff]
  refine ⟨fun h => ?_, fun h => ?_⟩
  · obtain ⟨⟨⟨⟨tn, tc⟩, nn, nc⟩, hs⟩, hr, rn, rp⟩ := h
    exact ⟨tn, tc, nn, nc, hs, hr, rn, rp⟩
  · exact ⟨⟨⟨⟨h.terminals_nodup, h.terminal_case⟩, h.nonterminals_nodup, h.nonterminal_case⟩,
      h.start⟩, h.readable, h.rules_nodup, h.rules_proper⟩

end Definitions

/-! ## Sound definitions are accepted -/

namespace Grammar

/-- The grammar after some requests comes from the edits among them, and if none of the requests
fails, each of the edits is accepted. -/
theorem feed_eq_run (g : Grammar) (rs : List (Located (Except DefinitionError Edit))) :
    let edits := (rs.map (·.value)).filterMap Except.toOption
    (g.feed rs).1 = (g.run edits).1 ∧ ((g.feed rs).2 = [] → g.accepted edits = edits) := by
  induction rs generalizing g with
  | nil => exact ⟨rfl, fun _ => rfl⟩
  | cons r rs ih =>
    obtain ⟨place, reason | e⟩ := r
    · exact ⟨(ih g).1, fun h => by simp [feed] at h⟩
    · have hcons : ((⟨place, .ok e⟩ :: rs).map (·.value)).filterMap Except.toOption =
          e :: (rs.map (·.value)).filterMap Except.toOption := rfl
      simp only [feed_cons, hcons]
      rcases hc : g.check e with reason | change
      · rw [serve_of_error hc, run_cons_of_error hc]
        exact ⟨(ih g).1, fun h => by simp at h⟩
      · rw [serve_of_ok hc, run_cons_of_ok hc, accepted_cons_of_ok hc]
        exact ⟨(ih _).1, fun h => by rw [(ih _).2 (by simpa using h)]⟩

end Grammar

namespace Definitions

variable {d : Definitions}

theorem map_value_requests (h : ∀ text ∈ d.productions, readProduction? text ≠ none) :
    d.requests.map (·.value) = d.edits.map .ok := by
  have hpairs : d.pairs.map (fun pair => Grammar.pairEdit pair.value) =
      d.rules.map fun (lhs, rhs) => .ok (.addProduction lhs rhs) :=
    calc d.pairs.map (fun pair => Grammar.pairEdit pair.value)
        = (d.pairs.map (·.value)).map Grammar.pairEdit := by
          rw [List.map_map]
          rfl
      _ = d.rules.map fun (lhs, rhs) => .ok (.addProduction lhs rhs) := by
          rw [map_value_pairs_of_readable h, List.map_map]
          rfl
  simp only [Grammar.requests_eq, edits, List.map_append, List.map_map, Function.comp_def,
    map_zipIdx_fst (fun c => (.ok (.addTerminal c) : Except DefinitionError Edit)),
    map_zipIdx_fst (fun c => (.ok (.addNonterminal c) : Except DefinitionError Edit)),
    map_zipIdx_fst (fun pair => Grammar.pairEdit (Located.value pair)), hpairs]

theorem sinceClear_edits (d : Definitions) : sinceClear d.edits = d.edits := by
  refine List.rtakeWhile_eq_self_iff.2 fun e he => ?_
  simp only [edits, List.mem_append, List.mem_map] at he
  rcases he with ((⟨c, -, rfl⟩ | ⟨c, -, rfl⟩) | ⟨c, -, rfl⟩) | ⟨rule, -, rfl⟩ <;> rfl

theorem terminals_edits (d : Definitions) : d.edits.filterMap Edit.terminal? = d.terminals := by
  simp [edits, List.filterMap_map, Function.comp_def, Edit.terminal?]

theorem nonterminals_edits (d : Definitions) :
    d.edits.filterMap Edit.nonterminal? = d.nonterminals := by
  simp [edits, List.filterMap_map, Function.comp_def, Edit.nonterminal?]

theorem start_edits (d : Definitions) : (d.edits.filterMap Edit.start?).getLast? = d.start := by
  rcases hs : d.start with _ | c <;>
    simp [edits, hs, List.filterMap_map, Function.comp_def, Edit.start?]

theorem rightHandSides_edits (d : Definitions) (c : Char) :
    d.edits.filterMap (Edit.rightHandSide? c) =
      d.rules.filterMap fun (lhs, rhs) => if lhs = c then some rhs else none := by
  simp [edits, List.filterMap_map, Function.comp_def, Edit.rightHandSide?]

theorem Sound.grammar (h : d.Sound) :
    ∃ g, d.grammar = .ok g ∧ g.Consistent ∧ g.Describes d.edits := by
  have hedits : (d.requests.map (·.value)).filterMap Except.toOption = d.edits := by
    rw [map_value_requests h.readable, List.filterMap_map]
    exact List.filterMap_some
  obtain ⟨g, hg, -⟩ := Grammar.feed_requests d
  rw [failures_eq_nil_iff.2 h] at hg
  obtain ⟨hrun, haccepted⟩ := Grammar.feed_eq_run .empty d.requests
  rw [hg, hedits] at hrun haccepted
  refine ⟨g, by rw [Definitions.grammar, hg], ?_, ?_⟩
  · rw [show g = _ from hrun]
    exact Grammar.consistent_empty.run d.edits
  · have hdescribes := Grammar.describes_run d.edits
    rwa [haccepted rfl, sinceClear_edits, ← hrun] at hdescribes

theorem exists_grammar_iff : (∃ g, d.grammar = .ok g) ↔ d.Sound := by
  refine ⟨fun ⟨g, hg⟩ => ?_, fun h => ?_⟩
  · obtain ⟨_, hfed, -⟩ := Grammar.feed_requests d
    rw [grammar, hfed] at hg
    rcases hf : d.failures with _ | ⟨f, rest⟩
    · exact failures_eq_nil_iff.1 hf
    · rw [hf] at hg
      cases hg
  · obtain ⟨g, hg, -⟩ := h.grammar
    exact ⟨g, hg⟩

theorem ne_nil_of_grammar {failures : List (Located DefinitionError)}
    (h : d.grammar = .error failures) : failures ≠ [] := by
  unfold grammar at h
  split at h
  · cases h
  · rename_i hne _
    cases h
    rintro rfl
    exact hne rfl

theorem describes_of_grammar {g : Grammar} (h : d.grammar = .ok g) :
    g.Consistent ∧ g.Describes d.edits := by
  obtain ⟨g', hg', hdescribes⟩ := (exists_grammar_iff.1 ⟨g, h⟩).grammar
  cases h.symm.trans hg'
  exact hdescribes

/-- The alternatives of the grammar are the right-hand sides of the rules. -/
theorem mem_alternatives_iff {g : Grammar} (h : g.Describes d.edits) {c : Char} {a : Alternative} :
    a ∈ g.alternatives c ↔ (c, a.text) ∈ d.rules := by
  rw [← List.mem_map_of_injective Grammar.text_injective, h.alternatives, rightHandSides_edits]
  simp only [List.mem_filterMap, Prod.exists, Option.ite_none_right_eq_some, Option.some.injEq]
  refine ⟨fun ⟨_, _, hm, rfl, rfl⟩ => hm, fun hm => ⟨_, _, hm, rfl, rfl⟩⟩

end Definitions

end Chomsky
