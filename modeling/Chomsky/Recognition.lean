import Chomsky.Table.Filling
import Chomsky.Table.Layout

/-!
# Recognition

A word can be asked about once the grammar has something to derive with and a start symbol, and the
word has only letters the grammar declares. The answer is read off the cell of the whole word.
-/

namespace Chomsky

/-- Why a word cannot be asked about. -/
inductive QueryError
  /-- There are no terminals or no productions. -/
  | emptyGrammar
  | noStartSymbol
  /-- The first letter of the word that is not a declared terminal. -/
  | invalidWord (c : Char)
deriving DecidableEq

def QueryError.message : QueryError → String
  | .emptyGrammar => "The grammar has no terminals or no productions"
  | .noStartSymbol => "The grammar has no start symbol"
  | .invalidWord c => s!"`{c}` is not a terminal of the grammar"

instance : ToString QueryError := ⟨QueryError.message⟩

namespace Grammar

/-- The start symbol, if the word can be asked about. -/
def checkQuery (g : Grammar) (word : Word) : Except QueryError Char :=
  if g.terminals.isEmpty || !g.hasProductions then .error .emptyGrammar
  else match g.start with
    | none => .error .noStartSymbol
    | some start =>
      match word.find? (· ∉ g.terminals) with
      | some c => .error (.invalidWord c)
      | none => .ok start

/-- The table of a word, with the cells in the order they were filled. -/
def tabulate (g : Grammar) (word : Word) : Except QueryError (Logged Table) := do
  let _ ← g.checkQuery word
  let filling := g.filling word
  return ⟨filling.table, filling.log.toList⟩

/-- Whether the start symbol derives the word, with the filled cells and the verdict. -/
def judge (g : Grammar) (word : Word) : Except QueryError (Logged Bool) := do
  let start ← g.checkQuery word
  let filling := g.filling word
  let derived := filling.table.derivesWord start
  return ⟨derived, filling.log.toList ++ [.judged word start derived]⟩

def derivationTable (g : Grammar) (word : Word) : Except QueryError Table :=
  (g.tabulate word).map (·.value)

def isDerived (g : Grammar) (word : Word) : Except QueryError Bool :=
  (g.judge word).map (·.value)

def tableText (g : Grammar) (word : Word) : Except QueryError String :=
  (g.derivationTable word).map (·.text)

/-- The verdict and the table together, with the table filled once. -/
def checkWord (g : Grammar) (word : Word) : Except QueryError (Logged (Bool × Table)) := do
  let tabulated ← g.tabulate word
  let derived := g.start.any tabulated.value.derivesWord
  return ⟨(derived, tabulated.value), tabulated.log⟩

end Grammar

end Chomsky
