import Chomsky.Grammar.Basic

/-!
# Derivation trees

A node names the nonterminal that is rewritten there, and either the terminal it is rewritten to or
the trees of the two nonterminals that take its place.
-/

namespace Chomsky

inductive Tree
  | leaf (symbol : Char) (t : Char)
  | node (symbol : Char) (left right : Tree)
deriving DecidableEq

namespace Tree

/-- The nonterminal at the root. -/
def symbol : Tree → Char
  | leaf c _ => c
  | node c _ _ => c

/-- The word at the leaves, from left to right. -/
def yield : Tree → Word
  | leaf _ t => [t]
  | node _ left right => left.yield ++ right.yield

/-- The number of nodes on a longest way from the root to a leaf. -/
def height : Tree → Nat
  | leaf _ _ => 1
  | node _ left right => 1 + max left.height right.height

/-- The alternative taken at the root. -/
def alternative : Tree → Alternative
  | leaf _ t => .letter t
  | node _ left right => .pair left.symbol right.symbol

end Tree

end Chomsky
