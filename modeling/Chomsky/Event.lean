import Chomsky.Grammar.Description
import Chomsky.Grammar.Edit

/-!
# Events

What is reported while a grammar is edited, a table is filled and a word is judged or generated.
-/

namespace Chomsky

inductive Level
  | debug
  | trace
deriving DecidableEq

/-- Something worth a line in a log. -/
inductive Event
  /-- An edit was accepted. -/
  | changed (change : Change)
  /-- A cell of a table received these nonterminals. -/
  | filled (span offset : Nat) (members : List Char)
  /-- A word was found to be derived from the start symbol, or not. -/
  | judged (word : Word) (start : Char) (derived : Bool)
  /-- A word was generated from this nonterminal. -/
  | generated (word : Word) (symbol : Char)
deriving DecidableEq

/-- A value with the events on the way to it. -/
structure Logged (α : Type) where
  value : α
  log : List Event

def Change.message : Change → String
  | .terminalAdded c => s!"Added terminal {c}"
  | .nonterminalAdded c => s!"Added nonterminal {c}"
  | .startSet c => s!"Start symbol is now {c}"
  | .productionAdded lhs alternative =>
    let rhs := alternative.text
    s!"Added production {lhs}::={rhs}"
  | .cleared => "Removed grammar"

namespace Event

/-- What is reported of an edit: the change if it was accepted, and nothing if it was refused. -/
def ofAnswer : Except GrammarError Change → List Event
  | .ok change => [changed change]
  | .error _ => []

def level : Event → Level
  | filled .. => .trace
  | _ => .debug

def message : Event → String
  | changed change => change.message
  | filled span offset members =>
    let set := Grammar.alphabetText members
    s!"Cell ({span}, {offset}) = {set}"
  | judged word start derived =>
    let text := String.ofList word
    let verdict := if derived then "is" else "is not"
    s!"`{text}` {verdict} derived from {start}"
  | generated word symbol =>
    let text := String.ofList word
    s!"Generated `{text}` from {symbol}"

end Event

end Chomsky
