import Chomsky.Event
import Chomsky.Heights
import Chomsky.Random.Source
import Chomsky.Tree

/-!
# Generation

A word is generated by growing a derivation tree from its root, the left part of a pair before the
right one. Every node chooses evenly among the alternatives that can be completed. At the depth
limit and below it, only the alternatives of least height are left, so every tree ends. The word at
its leaves is given out with a report.
-/

namespace Chomsky

/-- Why no word is generated. -/
inductive GenerateError
  /-- There are no terminals or no productions. -/
  | emptyGrammar
  | noStartSymbol
  /-- The nonterminal derives no word. -/
  | unproductive (c : Char)
deriving DecidableEq

def GenerateError.message : GenerateError → String
  | .emptyGrammar => "The grammar has no terminals or no productions"
  | .noStartSymbol => "The grammar has no start symbol"
  | .unproductive c => s!"`{c}` never derives a word"

instance : ToString GenerateError := ⟨GenerateError.message⟩

/-- A computation that draws numbers and may fail; it has no answer at all if a choice is given up.
The source is handed on after a failure too. -/
abbrev Generation := ExceptT GenerateError (StateT Source Option)

/-- One of the things, chosen evenly; none, and no number drawn, if there are none. -/
def chooseAmong {α : Type} (things : List α) : Generation (Option α) :=
  if things.isEmpty then pure none
  else do
    let i ← ExceptT.lift (Source.choose things.length)
    return things[i]?

/-- The alternatives open to a node whose nonterminal has the given height: those that can be
completed and, when no level is free any more, of these only the lowest. -/
def openAlternatives (heights : Heights) (free height : Nat) (alternatives : List Alternative) :
    List Alternative :=
  alternatives.filter fun alternative =>
    match heights.ofAlternative? alternative with
    | some h => 0 < free || h == height
    | none => false

/-- What is reported when a tree has been grown. -/
def Tree.event (t : Tree) : Event := .generated t.yield t.symbol

/-- The word of a grown tree with the report on it. -/
def Tree.announced (t : Tree) : Logged Word := ⟨t.yield, [t.event]⟩

namespace Grammar

/-- Grows a tree from `c` with so many free levels; the first number bounds the levels of the whole
tree. -/
def growWithin (g : Grammar) (heights : Heights) : Nat → Nat → Char → Generation Tree
  | 0, _, _ => fun _ => none
  | levels + 1, free, c => do
    let some height := heights.of? c | throw (.unproductive c)
    let candidates := openAlternatives heights free height (g.alternatives c)
    let some alternative ← chooseAmong candidates | throw (.unproductive c)
    match alternative with
    | .letter t => return .leaf c t
    | .pair b d =>
      let left ← growWithin g heights levels (free - 1) b
      let right ← growWithin g heights levels (free - 1) d
      return .node c left right

/-- Grows a tree from `c` that is free down to `maxDepth`. Below that depth every step down leads to
a smaller height, so the largest height bounds the levels left. -/
def growFrom (g : Grammar) (c : Char) (maxDepth : Nat) : Generation Tree :=
  let heights := g.heights
  g.growWithin heights (maxDepth + heights.largest + 1) maxDepth c

/-- Grows a tree from the start symbol. -/
def grow (g : Grammar) (maxDepth : Nat) : Generation Tree :=
  if g.terminals.isEmpty || !g.hasProductions then throw .emptyGrammar
  else match g.start with
    | none => throw .noStartSymbol
    | some start => g.growFrom start maxDepth

/-- Grows so many trees one after the other, up to the first failure. -/
def growMany (g : Grammar) (maxDepth : Nat) : Nat → Generation (List Tree)
  | 0 => return []
  | amount + 1 => do
    let tree ← g.grow maxDepth
    let trees ← growMany g maxDepth amount
    return tree :: trees

/-- Generates a word from `c` and reports it. -/
def announceFrom (g : Grammar) (c : Char) (maxDepth : Nat) : Generation (Logged Word) :=
  Tree.announced <$> g.growFrom c maxDepth

/-- Generates a word from the start symbol and reports it. -/
def announce (g : Grammar) (maxDepth : Nat) : Generation (Logged Word) :=
  Tree.announced <$> g.grow maxDepth

/-- Generates so many words and reports each of them. There is nothing to report of a failure: it
comes before the first word or not at all. -/
def announceMany (g : Grammar) (amount maxDepth : Nat) : Generation (Logged (List Word)) :=
  (fun trees => ⟨trees.map Tree.yield, trees.map Tree.event⟩) <$> g.growMany maxDepth amount

def generateFrom (g : Grammar) (c : Char) (maxDepth : Nat) : Generation Word :=
  (·.value) <$> g.announceFrom c maxDepth

def generate (g : Grammar) (maxDepth : Nat) : Generation Word := (·.value) <$> g.announce maxDepth

def generateMany (g : Grammar) (amount maxDepth : Nat) : Generation (List Word) :=
  (·.value) <$> g.announceMany amount maxDepth

theorem generateFrom_eq (g : Grammar) (c : Char) (maxDepth : Nat) :
    g.generateFrom c maxDepth = Tree.yield <$> g.growFrom c maxDepth :=
  Functor.map_map ..

theorem generate_eq (g : Grammar) (maxDepth : Nat) :
    g.generate maxDepth = Tree.yield <$> g.grow maxDepth :=
  Functor.map_map ..

theorem generateMany_eq (g : Grammar) (amount maxDepth : Nat) :
    g.generateMany amount maxDepth = List.map Tree.yield <$> g.growMany maxDepth amount :=
  Functor.map_map ..

end Grammar

end Chomsky
