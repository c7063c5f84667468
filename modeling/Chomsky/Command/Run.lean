import Chomsky.Command.Arguments
import Chomsky.Generation
import Chomsky.Grammar.Description
import Chomsky.Random.Keystream
import Chomsky.Recognition

/-!
# A run of the command

A run builds the grammar, checks the words in order and generates words. Errors in the definitions
end it; a word that cannot be checked and a generation that fails only make it fail in the end.
-/

namespace Chomsky

/-- What a part of a run writes, and whether it failed. -/
structure Outcome where
  stdout : String
  stderr : String
  failed : Bool
deriving DecidableEq

namespace Outcome

def nothing : Outcome := ⟨"", "", false⟩

def output (text : String) : Outcome := ⟨text, "", false⟩

/-- An error on a line of its own. -/
def failure (message : String) : Outcome := ⟨"", message ++ "\n", true⟩

/-- One part after the other. -/
def followedBy (a b : Outcome) : Outcome :=
  ⟨a.stdout ++ b.stdout, a.stderr ++ b.stderr, a.failed || b.failed⟩

def all (parts : List Outcome) : Outcome := parts.foldl followedBy nothing

/-- The exit status: one after a failure. -/
def status (o : Outcome) : Nat := if o.failed then 1 else 0

end Outcome

/-- What a request for the version writes. -/
def versionOutcome : Outcome := .output "cyk 0.1.0\n"

/-- The verdict on the word at a position, counted from one, with its table if that is asked for. -/
def wordOutcome (g : Grammar) (withTable : Bool) (word : String) (position : Nat) : Outcome :=
  match g.checkWord word.toList with
  | .ok ⟨(derived, table), _⟩ =>
    let verdict := if derived then "accepted" else "rejected"
    .output (s!"{word}: {verdict}\n" ++ if withTable then table.text else "")
  | .error error => .failure (Located.coloured ⟨⟨"word", position⟩, error⟩)

/-- The generated words, one on each line, or the reason there are none. There is no outcome if the
source is given up. -/
def generationOutcome (g : Grammar) (amount maxDepth : Nat) (source : Source) : Option Outcome :=
  match (g.generateMany amount maxDepth).run source with
  | none => none
  | some (.ok words, _) =>
    some (.output (String.join (words.map fun word => String.ofList word ++ "\n")))
  | some (.error error, _) => some (.failure (Located.coloured ⟨⟨"--generate", 0⟩, error⟩))

/-- Runs the command. The fresh seed serves when the arguments give none. -/
def Arguments.run (a : Arguments) (freshSeed : UInt64) : Option Outcome := do
  match a.definitions.grammar with
  | .error failures => return .all (failures.map fun failure => .failure failure.coloured)
  | .ok g =>
    let heading := if a.showGrammar then Outcome.output (g.describe ++ "\n") else .nothing
    let verdicts := (a.words.zipIdx 1).map fun (word, i) => wordOutcome g a.table word i
    let checked := heading.followedBy (.all verdicts)
    match a.amount with
    | none => return checked
    | some amount =>
      let seed := (a.seed.map Nat.toUInt64).getD freshSeed
      let generated ← generationOutcome g amount a.maxDepth (.ofSeed seed)
      return checked.followedBy generated

end Chomsky
