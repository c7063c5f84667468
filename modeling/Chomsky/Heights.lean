import Chomsky.Grammar.Basic

/-!
# Heights

The height of a nonterminal is the height of the lowest derivation tree below it; a nonterminal
without any tree has none. The heights are found by sweeping over the productions until a sweep
changes nothing: a production whose parts have heights offers one to its left-hand side, which takes
it if it had none or a larger one.
-/

namespace Chomsky

/-- The heights found so far, ascending by nonterminal. -/
abbrev Heights := List (Char × Nat)

namespace Heights

def of? (heights : Heights) (c : Char) : Option Nat := heights.lookup c

/-- Sets the height of `c`. -/
def set (c : Char) (height : Nat) : Heights → Heights
  | [] => [(c, height)]
  | (d, other) :: rest =>
    if c < d then (c, height) :: (d, other) :: rest
    else if c = d then (c, height) :: rest
    else (d, other) :: set c height rest

theorem of?_set (c x : Char) (height : Nat) :
    ∀ heights : Heights, (heights.set c height).of? x =
      if x = c then some height else heights.of? x
  | [] => by
    by_cases h : x = c
    · simp [set, of?, h]
    · simp [set, of?, h, List.lookup_cons, beq_eq_false_iff_ne.2 h]
  | (d, other) :: rest => by
    have ih := of?_set c x height rest
    simp only [of?] at ih ⊢
    simp only [set]
    by_cases hx : x = c
    · subst hx
      split
      · simp
      · split
        · simp
        · rename_i hne
          simpa [List.lookup_cons, beq_eq_false_iff_ne.2 hne] using ih
    · split
      · simp [List.lookup_cons, beq_eq_false_iff_ne.2 hx]
      · split
        · rename_i h
          subst h
          simp [List.lookup_cons, beq_eq_false_iff_ne.2 hx]
        · simp [List.lookup_cons, hx, ih]

/-- The largest height, zero if there is none. -/
def largest (heights : Heights) : Nat := heights.foldl (fun most (_, height) => max most height) 0

/-- The height of the lowest tree that begins with an alternative: one level for a terminal, and one
more than the higher part of a pair. -/
def ofAlternative? (heights : Heights) : Alternative → Option Nat
  | .letter _ => some 1
  | .pair b c =>
    match heights.of? b, heights.of? c with
    | some left, some right => some (1 + max left right)
    | _, _ => none

/-- Takes the height a production offers if it is the first or lower than the one known; the flag
tells whether anything has changed. -/
def improve (state : Heights × Bool) (rule : Char × Alternative) : Heights × Bool :=
  let (heights, _) := state
  match heights.ofAlternative? rule.2 with
  | none => state
  | some height =>
    if (heights.of? rule.1).all (height < ·) then (heights.set rule.1 height, true) else state

end Heights

namespace Grammar

/-- One sweep over all productions: the heights after it, and whether it changed any. -/
def sweep (g : Grammar) (heights : Heights) : Heights × Bool :=
  g.rules.foldl Heights.improve (heights, false)

/-- Sweeps until nothing changes, but at most so many times. -/
def settle (g : Grammar) : Nat → Heights → Heights
  | 0, heights => heights
  | sweeps + 1, heights =>
    match g.sweep heights with
    | (improved, true) => settle g sweeps improved
    | (settled, false) => settled

/-- The height of every nonterminal that derives a word. A lowest tree repeats no nonterminal on its
way down, so as many sweeps as there are nonterminals find every height and one more sees that
nothing changes. -/
def heights (g : Grammar) : Heights := g.settle (g.nonterminals.length + 1) []

end Grammar

end Chomsky
