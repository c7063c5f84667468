import Chomsky.Proofs.RuleMap

/-!
# Edits are decided by their history

Which edits a grammar accepts can be told from the edits accepted since the last clearing, and so
can the reason for a refusal (`refusal?`). What a grammar declares is what was added
(`Describes.mem_nonterminals_iff`), and a nonterminal has an alternative exactly if its text was
accepted as a right-hand side (`Describes.mem_alternatives_iff`). So every check of an edit against
the grammar comes out as a check against the history, and a repeated text is a repeated alternative
(`apply_decided`).
-/

namespace Chomsky

/-- The reason an answer gives, if the edit was refused. -/
def reason? : Except GrammarError Change → Option GrammarError
  | .ok _ => none
  | .error reason => some reason

/-! ## What a history decides -/

/-- Whether a letter was added, as a terminal or as a nonterminal. -/
def Declared (history : List Edit) (c : Char) : Prop :=
  .addTerminal c ∈ history ∨ .addNonterminal c ∈ history

instance (history : List Edit) (c : Char) : Decidable (Declared history c) :=
  inferInstanceAs (Decidable (_ ∨ _))

/-- Whether a right-hand side is one letter added as a terminal, or two added as nonterminals. -/
def NormalAfter (history : List Edit) : List Char → Prop
  | [t] => .addTerminal t ∈ history
  | [b, c] => .addNonterminal b ∈ history ∧ .addNonterminal c ∈ history
  | _ => False

instance (history : List Edit) : (rhs : List Char) → Decidable (NormalAfter history rhs)
  | [] => isFalse id
  | [t] => inferInstanceAs (Decidable (.addTerminal t ∈ history))
  | [_, _] => inferInstanceAs (Decidable (_ ∧ _))
  | _ :: _ :: _ :: _ => isFalse id

/-- Why an edit is refused after the accepted edits of a history, if it is. -/
def refusal? (history : List Edit) : Edit → Option GrammarError
  | .addTerminal c =>
    if Symbol.ofChar? c = some (.terminal c) ∧ ¬ Declared history c then none
    else some (.invalidSymbol c)
  | .addNonterminal c =>
    if Symbol.ofChar? c = some (.nonterminal c) ∧ ¬ Declared history c then none
    else some (.invalidSymbol c)
  | .setStart c => if .addNonterminal c ∈ history then none else some (.unknownSymbol c)
  | .addProduction lhs rhs =>
    if .addNonterminal lhs ∉ history then some (.unknownSymbol lhs)
    else if ¬ NormalAfter history rhs.toList then some (.invalidProduction lhs rhs)
    else if .addProduction lhs rhs ∈ history then some (.duplicateProduction lhs rhs)
    else none
  | .clear => none

/-- The history after one more edit: it goes on with the edit if that is not refused, and begins
anew when the grammar is cleared. -/
def remember (history : List Edit) (e : Edit) : List Edit :=
  if e = .clear then []
  else if refusal? history e = none then history ++ [e]
  else history

namespace Grammar

variable {g : Grammar} {history : List Edit} {c lhs : Char} {a : Alternative} {rhs : String}

/-! ## A grammar against its history -/

theorem Describes.mem_terminals_iff (h : g.Describes history) :
    c ∈ g.terminals ↔ .addTerminal c ∈ history := by
  rw [h.terminals, List.mem_filterMap]
  simp only [Edit.terminal?_eq_some_iff, exists_eq_right]

theorem Describes.mem_nonterminals_iff (h : g.Describes history) :
    c ∈ g.nonterminals ↔ .addNonterminal c ∈ history := by
  rw [h.nonterminals, List.mem_filterMap]
  simp only [Edit.nonterminal?_eq_some_iff, exists_eq_right]

theorem Describes.mem_alternatives_iff (h : g.Describes history) :
    a ∈ g.alternatives lhs ↔ .addProduction lhs a.text ∈ history := by
  rw [← List.mem_map_of_injective text_injective, h.alternatives, List.mem_filterMap]
  simp only [Edit.rightHandSide?_eq_some_iff, exists_eq_right]

/-- A letter of one class can only have been added to the alphabet of that class. -/
theorem Describes.declared_iff_mem_terminals (h : g.Describes history) (hg : g.Consistent)
    (hc : Symbol.ofChar? c = some (.terminal c)) : Declared history c ↔ c ∈ g.terminals := by
  rw [Declared, ← h.mem_terminals_iff, ← h.mem_nonterminals_iff, or_iff_left_iff_imp]
  intro hm
  cases hc.symm.trans (hg.nonterminal_case c hm)

theorem Describes.declared_iff_mem_nonterminals (h : g.Describes history) (hg : g.Consistent)
    (hc : Symbol.ofChar? c = some (.nonterminal c)) :
    Declared history c ↔ c ∈ g.nonterminals := by
  rw [Declared, ← h.mem_terminals_iff, ← h.mem_nonterminals_iff, or_iff_right_iff_imp]
  intro hm
  cases hc.symm.trans (hg.terminal_case c hm)

theorem Describes.normalAfter_iff (h : g.Describes history) :
    NormalAfter history rhs.toList ↔ ∃ a, g.readAlternative? rhs = some a := by
  unfold readAlternative?
  rcases rhs.toList with _ | ⟨b, _ | ⟨c, _ | ⟨_, _⟩⟩⟩ <;>
    simp [NormalAfter, h.mem_terminals_iff, h.mem_nonterminals_iff]

/-! ## The next edit -/

theorem Describes.reason?_check_addProduction (h : g.Describes history) :
    reason? (g.check (.addProduction lhs rhs)) = refusal? history (.addProduction lhs rhs) := by
  by_cases hl : .addNonterminal lhs ∈ history
  · by_cases hn : NormalAfter history rhs.toList
    · obtain ⟨a, ha⟩ := h.normalAfter_iff.1 hn
      -- the text is that of the alternative it is read as
      obtain rfl := text_of_readAlternative? ha
      simp only [check, refusal?, h.mem_nonterminals_iff, h.mem_alternatives_iff, hl, hn, ha,
        not_true_eq_false, if_false]
      split_ifs <;> rfl
    · have hread : g.readAlternative? rhs = none :=
        Option.eq_none_iff_forall_ne_some.2 fun a ha => hn (h.normalAfter_iff.2 ⟨a, ha⟩)
      simp [check, refusal?, h.mem_nonterminals_iff, hl, hn, hread, reason?]
  · simp [check, refusal?, h.mem_nonterminals_iff, hl, reason?]

theorem Describes.reason?_check (h : g.Describes history) (hg : g.Consistent) (e : Edit) :
    reason? (g.check e) = refusal? history e := by
  cases e with
  | addTerminal c =>
    have hnew : Symbol.ofChar? c = some (.terminal c) ∧ ¬ Declared history c ↔
        Symbol.ofChar? c = some (.terminal c) ∧ c ∉ g.terminals :=
      and_congr_right fun hc => not_congr (h.declared_iff_mem_terminals hg hc)
    simp only [check, refusal?, hnew]
    split_ifs <;> rfl
  | addNonterminal c =>
    have hnew : Symbol.ofChar? c = some (.nonterminal c) ∧ ¬ Declared history c ↔
        Symbol.ofChar? c = some (.nonterminal c) ∧ c ∉ g.nonterminals :=
      and_congr_right fun hc => not_congr (h.declared_iff_mem_nonterminals hg hc)
    simp only [check, refusal?, hnew]
    split_ifs <;> rfl
  | setStart c =>
    simp only [check, refusal?, h.mem_nonterminals_iff]
    split_ifs <;> rfl
  | addProduction lhs rhs => exact h.reason?_check_addProduction
  | clear => rfl

theorem apply_snd (g : Grammar) (e : Edit) : (g.apply e).2 = g.check e := by
  rcases hc : g.check e with reason | change
  · rw [apply_of_error hc]
  · rw [apply_of_ok hc]

/-! ## Longer runs -/

theorem accepted_append (g : Grammar) (edits rest : List Edit) :
    g.accepted (edits ++ rest) = g.accepted edits ++ (g.run edits).1.accepted rest := by
  induction g, edits using run_induction with
  | nil => rfl
  | refused hc ih =>
    rw [List.cons_append, accepted_cons_of_error hc, accepted_cons_of_error hc,
      run_cons_of_error hc, ih]
  | accepted hc ih =>
    rw [List.cons_append, accepted_cons_of_ok hc, accepted_cons_of_ok hc, run_cons_of_ok hc, ih,
      List.cons_append]

theorem Describes.accepted_single (h : g.Describes history) (hg : g.Consistent) (e : Edit) :
    g.accepted [e] = if refusal? history e = none then [e] else [] := by
  rw [← h.reason?_check hg]
  rcases hc : g.check e with reason | change
  · rw [accepted_cons_of_error hc]
    rfl
  · rw [accepted_cons_of_ok hc]
    rfl

/-- Whatever edits a grammar has been through, the answer to the next one is decided by those that
were accepted since the last clearing: a letter must have the class of its alphabet and be new, a
start symbol must have been added as a nonterminal, and a production is refused first for its
left-hand side, then for the form of its right-hand side, and then if the same text was accepted for
the same left-hand side before. The same edits decide which are remembered after it. -/
theorem apply_decided (edits : List Edit) (e : Edit) :
    let history := sinceClear (empty.accepted edits)
    reason? ((empty.run edits).1.apply e).2 = refusal? history e
      ∧ sinceClear (empty.accepted (edits ++ [e])) = remember history e := by
  intro history
  have hg : (empty.run edits).1.Consistent := consistent_empty.run edits
  have hempty : empty.Describes (sinceClear []) := describes_empty
  have h : (empty.run edits).1.Describes history := hempty.run edits
  refine ⟨?_, ?_⟩
  · rw [apply_snd]
    exact h.reason?_check hg e
  · rw [accepted_append, h.accepted_single hg, remember]
    by_cases hclear : e = .clear
    · subst hclear
      rw [if_pos rfl]
      exact sinceClear_concat_clear
    · rw [if_neg hclear]
      split_ifs
      · exact sinceClear_concat hclear
      · rw [List.append_nil]

-- behind a clearing the production is not a repetition, but its left-hand side is unknown
example : (empty.run [.addTerminal 'a', .addNonterminal 'S', .addProduction 'S' "a",
    .addProduction 'S' "a", .clear, .addProduction 'S' "a"]).2.map reason? =
      [none, none, none, some (.duplicateProduction 'S' "a"), none, some (.unknownSymbol 'S')] := by
  decide +kernel

end Grammar

end Chomsky
