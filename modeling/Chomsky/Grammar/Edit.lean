import Chomsky.Grammar.Basic
import Chomsky.Symbol

/-!
# Edits

A grammar grows by edits. An edit is a request in terms of characters and texts; it is checked
against what the grammar declares and becomes a change, or is refused with the reason. Only changes
touch the grammar, and a change cannot fail, so a refused edit leaves no trace.
-/

namespace Chomsky

/-- A request to alter a grammar. -/
inductive Edit
  | addTerminal (c : Char)
  | addNonterminal (c : Char)
  | setStart (c : Char)
  | addProduction (lhs : Char) (rhs : String)
  | clear
deriving DecidableEq

/-- An accepted edit. -/
inductive Change
  | terminalAdded (c : Char)
  | nonterminalAdded (c : Char)
  | startSet (c : Char)
  | productionAdded (lhs : Char) (alternative : Alternative)
  | cleared
deriving DecidableEq

/-- Why an edit is refused. -/
inductive GrammarError
  /-- The letter has the wrong case, no case, or is declared already. -/
  | invalidSymbol (c : Char)
  /-- The nonterminal is not declared. -/
  | unknownSymbol (c : Char)
  /-- The right-hand side is neither a declared terminal nor two declared nonterminals. -/
  | invalidProduction (lhs : Char) (rhs : String)
  /-- The nonterminal has this alternative already. -/
  | duplicateProduction (lhs : Char) (rhs : String)
deriving DecidableEq

def GrammarError.message : GrammarError → String
  | .invalidSymbol c => s!"`{c}` is not a valid new symbol"
  | .unknownSymbol c => s!"`{c}` is not a declared nonterminal"
  | .invalidProduction lhs rhs =>
    s!"`{lhs}::={rhs}` is not in Chomsky normal form over the declared symbols"
  | .duplicateProduction lhs rhs => s!"`{lhs}::={rhs}` is already defined"

instance : ToString GrammarError := ⟨GrammarError.message⟩

namespace Grammar

/-- The alternative a right-hand side spells over the declared letters. -/
def readAlternative? (g : Grammar) (rhs : String) : Option Alternative :=
  match rhs.toList with
  | [t] => if t ∈ g.terminals then some (.letter t) else none
  | [b, c] => if b ∈ g.nonterminals ∧ c ∈ g.nonterminals then some (.pair b c) else none
  | _ => none

/-- Checks an edit against what is declared. A production is refused for its left-hand side first,
then for the form of its right-hand side, then as a repetition. -/
def check (g : Grammar) : Edit → Except GrammarError Change
  | .addTerminal c =>
    if Symbol.ofChar? c = some (.terminal c) ∧ c ∉ g.terminals then .ok (.terminalAdded c)
    else .error (.invalidSymbol c)
  | .addNonterminal c =>
    if Symbol.ofChar? c = some (.nonterminal c) ∧ c ∉ g.nonterminals then .ok (.nonterminalAdded c)
    else .error (.invalidSymbol c)
  | .setStart c =>
    if c ∈ g.nonterminals then .ok (.startSet c) else .error (.unknownSymbol c)
  | .addProduction lhs rhs =>
    if lhs ∉ g.nonterminals then .error (.unknownSymbol lhs)
    else match g.readAlternative? rhs with
      | none => .error (.invalidProduction lhs rhs)
      | some alternative =>
        if alternative ∈ g.alternatives lhs then .error (.duplicateProduction lhs rhs)
        else .ok (.productionAdded lhs alternative)
  | .clear => .ok .cleared

/-- Makes a change. -/
def commit (g : Grammar) : Change → Grammar
  | .terminalAdded c => { g with terminals := g.terminals ++ [c] }
  | .nonterminalAdded c => { g with groups := g.groups ++ [⟨c, []⟩] }
  | .startSet c => { g with start := some c }
  | .productionAdded lhs alternative =>
    { g with groups := g.groups.map fun group =>
        if group.symbol = lhs then
          { group with alternatives := group.alternatives ++ [alternative] }
        else group }
  | .cleared => empty

/-- Carries out an edit: the grammar after it, and the change or the reason there was none. -/
def apply (g : Grammar) (e : Edit) : Grammar × Except GrammarError Change :=
  match g.check e with
  | .ok change => (g.commit change, .ok change)
  | .error reason => (g, .error reason)

/-- Carries out edits one after the other, with the answer to each. -/
def run (g : Grammar) : List Edit → Grammar × List (Except GrammarError Change)
  | [] => (g, [])
  | e :: rest =>
    let (next, answer) := g.apply e
    let (last, answers) := next.run rest
    (last, answer :: answers)

/-! ## What a change does to the views of a grammar -/

@[simp] theorem nonterminals_commit_nonterminalAdded (g : Grammar) (c : Char) :
    (g.commit (.nonterminalAdded c)).nonterminals = g.nonterminals ++ [c] := by
  simp [commit, nonterminals]

@[simp] theorem nonterminals_commit_productionAdded (g : Grammar) (lhs : Char)
    (alternative : Alternative) :
    (g.commit (.productionAdded lhs alternative)).nonterminals = g.nonterminals := by
  simp only [commit, nonterminals, List.map_map]
  refine List.map_congr_left fun group _ => ?_
  simp only [Function.comp_apply]
  split <;> rfl

@[simp] theorem alternatives_commit_nonterminalAdded (g : Grammar) (c x : Char) :
    (g.commit (.nonterminalAdded c)).alternatives x = g.alternatives x := by
  simp only [commit, alternatives, List.find?_append]
  cases g.groups.find? (·.symbol == x) with
  | some group => rfl
  | none => by_cases h : c = x <;> simp [h]

/-- A new production comes last among the alternatives of its left-hand side. -/
theorem alternatives_commit_productionAdded (g : Grammar) {lhs : Char} (alternative : Alternative)
    (h : lhs ∈ g.nonterminals) (x : Char) :
    (g.commit (.productionAdded lhs alternative)).alternatives x =
      if x = lhs then g.alternatives x ++ [alternative] else g.alternatives x := by
  have key : ((fun group : RuleGroup => group.symbol == x) ∘ fun group : RuleGroup =>
      if group.symbol = lhs then { group with alternatives := group.alternatives ++ [alternative] }
      else group) = fun group => group.symbol == x := by
    funext group
    simp only [Function.comp_apply]
    split <;> rfl
  simp only [commit, alternatives, List.find?_map, key]
  cases hf : g.groups.find? (·.symbol == x) with
  | some group =>
    have hs : group.symbol = x := by simpa using List.find?_some hf
    by_cases hx : x = lhs <;> simp [hs, hx]
  | none =>
    have hx : x ≠ lhs := by
      rintro rfl
      obtain ⟨group, hg, hs⟩ := List.mem_map.1 h
      exact List.find?_eq_none.1 hf group hg (by simp [hs])
    simp [hx]

end Grammar

end Chomsky
