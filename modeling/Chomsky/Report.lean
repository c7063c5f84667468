/-!
# Places on the command line

An error that comes from the command line is reported with the argument it comes from.
-/

namespace Chomsky

/-- An argument, and which of its parts is meant: characters, occurrences and words are counted from
one, and zero means the argument as a whole. -/
structure Location where
  argument : String
  position : Nat
deriving DecidableEq

def Location.text (l : Location) : String :=
  let argument := l.argument
  let position := l.position
  if position = 0 then argument else s!"{argument} #{position}"

/-- Something with the place it comes from. -/
structure Located (α : Type) where
  location : Location
  value : α
deriving DecidableEq

/-- The place in brackets in bold red and the message in bold, for a terminal with ANSI colours. -/
def Located.coloured {ε : Type} [ToString ε] (e : Located ε) : String :=
  let place := e.location.text
  let message := toString e.value
  s!"\x1b[31;49;1m[{place}]\x1b[39;49;1m  {message}\x1b[0m"

end Chomsky
