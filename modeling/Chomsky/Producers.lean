import Chomsky.Grammar.Basic
import Chomsky.Positions

/-!
# Producers

The productions of a grammar sorted by their right-hand side: a terminal, or a pair of positions of
nonterminals, leads to the set of the positions of those that can be rewritten to it.
-/

namespace Chomsky

/-- For each right-hand side in use, the positions of its producers. -/
structure Producers where
  width : Nat
  byLetter : List (Char × Positions)
  byPair : List ((Nat × Nat) × Positions)
deriving DecidableEq

/-- Adds a position to the set kept for `key`, which begins empty. -/
def noteProducer {κ : Type} [DecidableEq κ] (width : Nat) (key : κ) (i : Nat) :
    List (κ × Positions) → List (κ × Positions)
  | [] => [(key, (Positions.empty width).insert i)]
  | (k, s) :: rest =>
    if k = key then (k, s.insert i) :: rest else (k, s) :: noteProducer width key i rest

theorem lookup_noteProducer {κ : Type} [DecidableEq κ] (width i : Nat) (key k : κ) :
    ∀ l : List (κ × Positions), (noteProducer width key i l).lookup k =
      if k = key then some (((l.lookup key).getD (.empty width)).insert i) else l.lookup k
  | [] => by
    by_cases h : k = key
    · simp [noteProducer, h]
    · simp [noteProducer, List.lookup_cons, h, beq_eq_false_iff_ne.2 h]
  | (d, s) :: rest => by
    have ih := lookup_noteProducer width i key k rest
    by_cases hd : d = key
    · subst hd
      by_cases h : k = d
      · simp [noteProducer, h]
      · simp [noteProducer, List.lookup_cons, h, beq_eq_false_iff_ne.2 h]
    · by_cases h : k = key
      · subst h
        simpa [noteProducer, List.lookup_cons, hd, beq_eq_false_iff_ne.2 (Ne.symm hd)] using ih
      · simp [noteProducer, List.lookup_cons, hd, h, ih]

namespace Producers

/-- The producers of a terminal, if there are any. -/
def ofLetter? (p : Producers) (t : Char) : Option Positions := p.byLetter.lookup t

/-- The producers of a pair of nonterminals given by their positions, if there are any. -/
def ofPair? (p : Producers) (i j : Nat) : Option Positions := p.byPair.lookup (i, j)

/-- Enters one production of the nonterminal at position `lhs`. -/
def note (g : Grammar) (p : Producers) : Nat × Alternative → Producers
  | (lhs, .letter t) => { p with byLetter := noteProducer p.width t lhs p.byLetter }
  | (lhs, .pair b c) =>
    match g.position? b, g.position? c with
    | some i, some j => { p with byPair := noteProducer p.width (i, j) lhs p.byPair }
    | _, _ => p

/-- Adds the producers of a pair to those found, if it has any. -/
def addPair (p : Producers) (found : Positions) (pair : Nat × Nat) : Positions :=
  match p.ofPair? pair.1 pair.2 with
  | some producers => found.union producers
  | none => found

/-- Adds to `into` the producers of every pair with its left part in `left` and its right part in
`right`, looking them up pair by pair. -/
def combine (p : Producers) (left right into : Positions) : Positions :=
  (left.toList.flatMap fun i => right.toList.map fun j => (i, j)).foldl p.addPair into

end Producers

namespace Grammar

/-- Every production with the position of its left-hand side. -/
def numberedRules (g : Grammar) : List (Nat × Alternative) :=
  g.groups.zipIdx.flatMap fun (group, i) => group.alternatives.map (i, ·)

def producers (g : Grammar) : Producers :=
  g.numberedRules.foldl (Producers.note g) ⟨g.nonterminals.length, [], []⟩

end Grammar

end Chomsky
