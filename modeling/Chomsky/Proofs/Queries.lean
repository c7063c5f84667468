import Chomsky.Proofs.Decisions
import Chomsky.Proofs.Progress

/-!
# Queries about a word

Every query begins with the same check, and all answers are read off one table (`checkWord_eq` and
its siblings). So the queries about a word fail together and for one reason, which the edits
accepted since the last clearing decide (`Describes.refuses_iff`). Generation has no word to check,
and for want of productions or a start symbol it fails exactly when the queries about the empty word
do (`queries_agree`).
-/

namespace Chomsky

/-! ## What a history refuses -/

/-- Whether a history has a terminal and a production, so that something can be derived. -/
def Equipped (history : List Edit) : Prop :=
  (∃ t, .addTerminal t ∈ history) ∧ ∃ lhs rhs, .addProduction lhs rhs ∈ history

/-- Whether this is the reason why a word cannot be asked about after the accepted edits of a
history. -/
def Refused (history : List Edit) (word : Word) : QueryError → Prop
  | .emptyGrammar => ¬ Equipped history
  | .noStartSymbol => Equipped history ∧ ¬ ∃ s, .setStart s ∈ history
  | .invalidWord c => Equipped history ∧ (∃ s, .setStart s ∈ history) ∧ .addTerminal c ∉ history
    ∧ ∃ before after, word = before ++ c :: after ∧ ∀ x ∈ before, .addTerminal x ∈ history

namespace Grammar

open Generation

variable {g : Grammar} {history : List Edit} {word : Word} {c : Char} {e : QueryError}

/-! ## The check -/

/-- Whether this is the reason why a grammar cannot be asked about a word. -/
def Refuses (g : Grammar) (word : Word) : QueryError → Prop
  | .emptyGrammar => ¬ (g.terminals ≠ [] ∧ g.hasProductions = true)
  | .noStartSymbol => (g.terminals ≠ [] ∧ g.hasProductions = true) ∧ g.start = none
  | .invalidWord c => (g.terminals ≠ [] ∧ g.hasProductions = true) ∧ g.start ≠ none
    ∧ word.find? (· ∉ g.terminals) = some c

theorem checkQuery_eq_error_iff : g.checkQuery word = .error e ↔ g.Refuses word e := by
  unfold checkQuery
  split_ifs with he
  · have hlack : ¬ (g.terminals ≠ [] ∧ g.hasProductions = true) := fun h => not_lacking_iff.2 h he
    cases e <;> simp only [Refuses, hlack] <;> simp
  · have hequipped := not_lacking_iff.1 he
    cases hs : g.start with
    | none => cases e <;> simp [Refuses, hequipped, hs]
    | some start =>
      cases hw : word.find? (· ∉ g.terminals) <;> cases e <;> simp only [Refuses, hs, hw] <;>
        simp [hequipped]

theorem Describes.equipped_iff (h : g.Describes history) (hg : g.Consistent) :
    (g.terminals ≠ [] ∧ g.hasProductions = true) ↔ Equipped history := by
  refine and_congr ?_ (hg.hasProductions_iff.trans ?_)
  · simp only [ne_eq, List.eq_nil_iff_forall_not_mem, h.mem_terminals_iff, not_forall, not_not]
  · refine exists_congr fun lhs => ⟨fun ⟨a, ha⟩ => ⟨_, h.mem_alternatives_iff.1 ha⟩, ?_⟩
    rintro ⟨rhs, hr⟩
    have hm : rhs ∈ (g.alternatives lhs).map Alternative.text := by
      rw [h.alternatives, List.mem_filterMap]
      exact ⟨_, hr, Edit.rightHandSide?_eq_some_iff.2 rfl⟩
    obtain ⟨a, ha, -⟩ := List.mem_map.1 hm
    exact ⟨a, ha⟩

theorem Describes.start_eq_none_iff (h : g.Describes history) :
    g.start = none ↔ ¬ ∃ s, .setStart s ∈ history := by
  rw [h.start, List.getLast?_eq_none_iff, List.eq_nil_iff_forall_not_mem]
  simp only [List.mem_filterMap, Edit.start?_eq_some_iff, exists_eq_right, not_exists]

theorem Describes.refuses_iff (h : g.Describes history) (hg : g.Consistent) :
    g.Refuses word e ↔ Refused history word e := by
  cases e <;> simp only [Refuses, Refused, h.equipped_iff hg, ne_eq, h.start_eq_none_iff, not_not]
  -- the first letter that was not added
  simp [List.find?_eq_some_iff_append, h.mem_terminals_iff]

/-! ## The answers -/

theorem checkWord_eq (g : Grammar) (word : Word) : (g.checkWord word).map Logged.value =
    (g.checkQuery word).map fun start => ((g.table word).derivesWord start, g.table word) := by
  rcases hq : g.checkQuery word with e | start
  · rw [checkWord_of_error hq]
    rfl
  · rw [checkWord_of_ok hq]
    rfl

theorem tableText_eq (g : Grammar) (word : Word) :
    g.tableText word = (g.checkQuery word).map fun _ => (g.table word).text := by
  rw [tableText, derivationTable_eq]
  cases g.checkQuery word <;> rfl

theorem isDerived_eq_error_iff : g.isDerived word = .error e ↔ g.Refuses word e := by
  rw [← checkQuery_eq_error_iff, isDerived_eq]
  cases g.checkQuery word <;> simp [Except.map]

/-- A word is checked, tabulated, judged and shown from one answer: the queries fail together and
for the same reason, or they all read the same table. The reason is the first of three to apply to
the edits accepted since the last clearing: there is no terminal or no production, there is no start
symbol, or some letter of the word was not added as a terminal, and then the first such letter is
named. Without a reason there is an answer. Generation fails for one of the first two reasons
exactly when the empty word is refused for it, and then draws no number. -/
theorem queries_agree (edits : List Edit) (word : Word) :
    let g := (empty.run edits).1
    let history := sinceClear (empty.accepted edits)
    let answer := (g.checkWord word).map Logged.value
    g.derivationTable word = answer.map Prod.snd
      ∧ g.isDerived word = answer.map Prod.fst
      ∧ g.tableText word = answer.map (fun p => p.2.text)
      ∧ (∀ e, answer = .error e ↔ Refused history word e)
      ∧ ((∃ derived t, answer = .ok (derived, t)) ↔ ∀ e, ¬ Refused history word e)
      ∧ ∀ maxDepth s s',
        (Fails (g.generate maxDepth) s .emptyGrammar s' ↔
          g.isDerived [] = .error .emptyGrammar ∧ s' = s)
        ∧ (Fails (g.generate maxDepth) s .noStartSymbol s' ↔
          g.isDerived [] = .error .noStartSymbol ∧ s' = s) := by
  intro g history answer
  have hg : g.Consistent := consistent_empty.run edits
  have hn := hg.nonterminals_nodup
  have h : g.Describes history := describes_run edits
  have hanswer : answer = _ := g.checkWord_eq word
  have herror : ∀ e, answer = .error e ↔ Refused history word e := by
    intro e
    rw [← h.refuses_iff hg, ← checkQuery_eq_error_iff, hanswer]
    cases g.checkQuery word <;> simp [Except.map]
  refine ⟨?_, ?_, ?_, herror, ?_, fun maxDepth s s' => ⟨?_, ?_⟩⟩
  · rw [derivationTable_eq, hanswer]
    cases g.checkQuery word <;> rfl
  · rw [isDerived_eq, hanswer]
    cases g.checkQuery word <;> rfl
  · rw [tableText_eq, hanswer]
    cases g.checkQuery word <;> rfl
  · simp only [← herror]
    rcases answer with e | ⟨derived, t⟩ <;> simp
  · rw [isDerived_eq_error_iff, fails_generate_iff]
    simp [Refuses, fails_generateFrom_iff hn]
  · rw [isDerived_eq_error_iff, fails_generate_iff]
    simp [Refuses, fails_generateFrom_iff hn, and_assoc]

end Grammar

end Chomsky
