import Chomsky.Command.Run

/-!
# The command

Reads the command line, runs what it asks for, writes the outcome and exits with its status. Without
a seed on the command line, the system's random bytes give one.
-/

namespace Chomsky

def usageText : String :=
  "Usage: cyk [-t CHARS] [-n CHARS] [-s SYMBOL] [-p LHS=RHS]... [--table] [--show-grammar]\n" ++
  "           [-g AMOUNT] [--seed N] [--max-depth DEPTH] [WORDS]...\n"

def UsageError.message : UsageError → String
  | .unknownArgument => "unknown argument"
  | .invalidValue => "an option lacks its value"
  | .valueValidation => "an option has an invalid value"
  | .argumentConflict => "an option is given more than once"
  | .tooManyValues => "a flag takes no value"

/-- Writes an outcome and hands on its status. -/
def Outcome.write (o : Outcome) : IO UInt32 := do
  IO.print o.stdout
  IO.eprint o.stderr
  return o.status.toUInt32

end Chomsky

open Chomsky

def main (args : List String) : IO UInt32 := do
  match Arguments.read args with
  | .error .version => versionOutcome.write
  | .error .help => (Outcome.output usageText).write
  | .error (.misuse error) =>
    let message := error.message
    IO.eprint s!"error: {message}\n{usageText}"
    return 2
  | .ok arguments =>
    let bytes ← IO.getRandomBytes 8
    let seed := bytes.foldl (fun (n : UInt64) byte => (n <<< 8) ||| byte.toUInt64) 0
    match arguments.run seed with
    | none => return 1
    | some outcome => outcome.write
