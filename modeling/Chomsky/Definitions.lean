import Chomsky.Grammar.Edit
import Chomsky.Report
import Chomsky.Text.Blank

/-!
# Definitions

A grammar can be given by its letters, its start symbol and the texts of its productions. Each text
names one nonterminal and, behind an equals sign, its alternatives separated by bars. Every
definition is tried, whatever happened to those before it, and every failure is reported with its
place.
-/

namespace Chomsky

/-- What a grammar is to be built from. -/
structure Definitions where
  terminals : List Char
  nonterminals : List Char
  start : Option Char
  productions : List String

/-- Why a definition fails. -/
inductive DefinitionError
  /-- The text of a production lacks the equals sign, or has not one character before it. -/
  | malformed (text : String)
  /-- The grammar refuses what is defined. -/
  | rejected (reason : GrammarError)
deriving DecidableEq

def DefinitionError.message : DefinitionError → String
  | .malformed text => s!"Expected `LHS=RHS[|RHS...]`, got `{text}`"
  | .rejected reason => reason.message

instance : ToString DefinitionError := ⟨DefinitionError.message⟩

/-- Reads the text of a production: one character, the first equals sign, and right-hand sides
separated by bars. Blanks around each part do not count. -/
def readProduction? (text : String) : Option (Char × List String) :=
  let chars := text.toList
  match chars.dropWhile (· ≠ '=') with
  | [] => none
  | _ :: right =>
    match trimBlanks (chars.takeWhile (· ≠ '=')) with
    | [lhs] => some (lhs, (right.splitOn '|').map fun piece => String.ofList (trimBlanks piece))
    | _ => none

namespace Definitions

/-- The edits that the text of a production asks for, or the reason why it asks for none. -/
def productionEdits (text : String) : List (Except DefinitionError Edit) :=
  match readProduction? text with
  | some (lhs, alternatives) => alternatives.map fun rhs => .ok (.addProduction lhs rhs)
  | none => [.error (.malformed text)]

/-- All that the definitions ask for, each with its place. -/
def requests (d : Definitions) : List (Located (Except DefinitionError Edit)) :=
  (d.terminals.zipIdx 1).map (fun (c, i) => ⟨⟨"--terminals", i⟩, .ok (.addTerminal c)⟩) ++
  (d.nonterminals.zipIdx 1).map (fun (c, i) => ⟨⟨"--nonterminals", i⟩, .ok (.addNonterminal c)⟩) ++
  d.start.toList.map (fun c => ⟨⟨"--start", 0⟩, .ok (.setStart c)⟩) ++
  (d.productions.zipIdx 1).flatMap fun (text, i) =>
    (productionEdits text).map fun request => ⟨⟨"--production", i⟩, request⟩

end Definitions

namespace Grammar

/-- Carries out requests one after the other and collects what fails. -/
def feed (g : Grammar) :
    List (Located (Except DefinitionError Edit)) → Grammar × List (Located DefinitionError)
  | [] => (g, [])
  | ⟨location, .error reason⟩ :: rest =>
    let (last, failures) := g.feed rest
    (last, ⟨location, reason⟩ :: failures)
  | ⟨location, .ok edit⟩ :: rest =>
    match g.apply edit with
    | (next, .ok _) => next.feed rest
    | (next, .error reason) =>
      let (last, failures) := next.feed rest
      (last, ⟨location, .rejected reason⟩ :: failures)

end Grammar

/-- The grammar the definitions describe, or all that is wrong with them. -/
def Definitions.grammar (d : Definitions) : Except (List (Located DefinitionError)) Grammar :=
  match Grammar.empty.feed d.requests with
  | (g, []) => .ok g
  | (_, failures) => .error failures

end Chomsky
