/-!
# Grammars in Chomsky normal form

A grammar declares terminals and nonterminals, may name a start symbol, and rewrites a nonterminal
to one terminal or to two nonterminals. A nonterminal is kept together with its alternatives, so
nothing undeclared has any, and two grammars are equal as data exactly when they declare the same
letters in the same order and rewrite them alike.
-/

namespace Chomsky

/-- A word is a list of letters. -/
abbrev Word := List Char

/-- What a nonterminal can be rewritten to: one terminal, or two nonterminals. -/
inductive Alternative
  | letter (t : Char)
  | pair (b c : Char)
deriving DecidableEq

/-- A declared nonterminal with its alternatives in the order they were added. -/
structure RuleGroup where
  symbol : Char
  alternatives : List Alternative
deriving DecidableEq

/-- Both alphabets are in the order of declaration. -/
structure Grammar where
  terminals : List Char
  groups : List RuleGroup
  start : Option Char
deriving DecidableEq

namespace Grammar

def empty : Grammar := ⟨[], [], none⟩

def nonterminals (g : Grammar) : List Char := g.groups.map (·.symbol)

/-- The place of a nonterminal in the order of declaration, from zero. -/
def position? (g : Grammar) (c : Char) : Option Nat := g.nonterminals.idxOf? c

/-- The alternatives of `c`, none if it is not declared. -/
def alternatives (g : Grammar) (c : Char) : List Alternative :=
  match g.groups.find? (·.symbol == c) with
  | some group => group.alternatives
  | none => []

/-- Every production, nonterminals in the order of declaration. -/
def rules (g : Grammar) : List (Char × Alternative) :=
  g.groups.flatMap fun group => group.alternatives.map (group.symbol, ·)

def hasProductions (g : Grammar) : Bool := g.groups.any fun group => !group.alternatives.isEmpty

/-- Whether nothing is declared and nothing can be rewritten. -/
def isEmpty (g : Grammar) : Bool :=
  g.terminals.isEmpty && g.nonterminals.isEmpty && !g.hasProductions

end Grammar

end Chomsky
