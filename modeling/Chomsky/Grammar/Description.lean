import Chomsky.Grammar.Basic

/-!
# The text of a grammar

The description of a grammar names its parts in the order of declaration and then gives one line to
each nonterminal that has alternatives. No symbol is a bracket, comma, bar or underscore, so the
text needs no quoting.
-/

namespace Chomsky

def Alternative.text : Alternative → String
  | .letter t => String.ofList [t]
  | .pair b c => String.ofList [b, c]

namespace Grammar

/-- The production line of `c`, empty if it has no alternatives. -/
def productions (g : Grammar) (c : Char) : String :=
  match g.alternatives c with
  | [] => ""
  | alternatives => s!"{c}::=" ++ "|".intercalate (alternatives.map (·.text))

/-- An alphabet in braces, separated by commas. -/
def alphabetText (alphabet : List Char) : String :=
  "\x7b" ++ ",".intercalate (alphabet.map fun c => String.ofList [c]) ++ "\x7d"

/-- The whole grammar; an underscore stands for a start symbol that is not set. -/
def describe (g : Grammar) : String :=
  let terminals := alphabetText g.terminals
  let nonterminals := alphabetText g.nonterminals
  let start := g.start.getD '_'
  let lines := (g.nonterminals.filter fun c => !(g.alternatives c).isEmpty).map fun c =>
    g.productions c ++ "\n"
  s!"G=({terminals},{nonterminals},{start},P)\nP=" ++ "\x7b\n" ++ String.join lines ++ "\x7d"

end Grammar

end Chomsky
