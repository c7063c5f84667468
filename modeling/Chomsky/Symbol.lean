import Chomsky.Text.Case

/-!
# Symbols

The case of a letter decides the part it can play in a grammar.
-/

namespace Chomsky

/-- A letter with the part it can play. -/
inductive Symbol
  | terminal (c : Char)
  | nonterminal (c : Char)
deriving DecidableEq

/-- Lowercase letters are terminals and uppercase letters nonterminals; nothing else is a symbol.
Every character with a case is alphabetic, so this needs no test of its own for letters. -/
def Symbol.ofChar? (c : Char) : Option Symbol :=
  if isLowercase c then some (.terminal c)
  else if isUppercase c then some (.nonterminal c)
  else none

end Chomsky
