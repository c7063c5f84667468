import Chomsky.Symbol
import Chomsky.Tree
import Mathlib.Logic.Relation

/-!
# Derivations

What a nonterminal derives is said in two ways. A derivation tree takes an alternative of the
grammar at every node, and its leaves spell the word. A form, a sequence of terminals and
nonterminals, is rewritten by replacing one nonterminal at a time, anywhere and in any order, until
only the word is left.

Both say the same (`rewrites_iff_derives`). A tree is rewritten part by part. A form on the way to a
word spells it: the word falls into pieces, one for each symbol, and each nonterminal derives its
piece (`spells_of_rewrites`), however the steps are mixed.
-/

namespace Chomsky

/-- Whether every node of a tree takes an alternative of the grammar. -/
def Tree.Of (g : Grammar) : Tree → Prop
  | .leaf c t => .letter t ∈ g.alternatives c
  | .node c left right =>
    .pair left.symbol right.symbol ∈ g.alternatives c ∧ left.Of g ∧ right.Of g

/-- Terminals and nonterminals in a row. -/
abbrev Form := List Symbol

/-- The form an alternative puts in the place of its nonterminal. -/
def Alternative.form : Alternative → Form
  | .letter t => [.terminal t]
  | .pair b c => [.nonterminal b, .nonterminal c]

/-- The form that has nothing left to rewrite. -/
def Word.form (word : Word) : Form := word.map .terminal

namespace Tree

theorem length_yield_pos : ∀ t : Tree, 0 < t.yield.length
  | leaf _ _ => Nat.one_pos
  | node _ left right => by
    have := left.length_yield_pos
    simp only [yield, List.length_append]
    omega

theorem height_pos : ∀ t : Tree, 0 < t.height
  | leaf _ _ => Nat.one_pos
  | node _ left right => by
    simp only [height]
    omega

theorem Of.alternative_mem {g : Grammar} {t : Tree} (h : t.Of g) :
    t.alternative ∈ g.alternatives t.symbol := by
  cases t with
  | leaf c t => exact h
  | node c left right => exact h.1

end Tree

namespace Grammar

/-- Whether a word is at the leaves of some tree below `c`. -/
def Derives (g : Grammar) (c : Char) (word : Word) : Prop :=
  ∃ t : Tree, t.Of g ∧ t.symbol = c ∧ t.yield = word

/-- One step of rewriting: a nonterminal anywhere in a form gives way to one of its alternatives. -/
inductive Step (g : Grammar) : Form → Form → Prop
  | rewrite (before after : Form) {c : Char} {a : Alternative} (h : a ∈ g.alternatives c) :
    Step g (before ++ .nonterminal c :: after) (before ++ a.form ++ after)

/-- Whether a word falls into one piece for each symbol of a form: a terminal itself, and a word
that a nonterminal derives. -/
def Spells (g : Grammar) : Form → Word → Prop
  | [], word => word = []
  | .terminal t :: form, word => ∃ rest, word = t :: rest ∧ g.Spells form rest
  | .nonterminal c :: form, word =>
    ∃ piece rest, word = piece ++ rest ∧ g.Derives c piece ∧ g.Spells form rest

open Relation

variable {g : Grammar}

theorem Derives.ne_nil {c : Char} {word : Word} (h : g.Derives c word) : word ≠ [] := by
  obtain ⟨t, -, -, rfl⟩ := h
  exact List.ne_nil_of_length_pos t.length_yield_pos

theorem derives_iff {c : Char} {word : Word} :
    g.Derives c word ↔ (∃ t, word = [t] ∧ .letter t ∈ g.alternatives c)
      ∨ ∃ b d u v, .pair b d ∈ g.alternatives c ∧ word = u ++ v
        ∧ g.Derives b u ∧ g.Derives d v := by
  refine ⟨fun h => ?_, fun h => ?_⟩
  · obtain ⟨t, ht, rfl, rfl⟩ := h
    cases t with
    | leaf c t => exact .inl ⟨t, rfl, ht⟩
    | node c left right =>
      exact .inr ⟨_, _, _, _, ht.1, rfl, ⟨left, ht.2.1, rfl, rfl⟩, ⟨right, ht.2.2, rfl, rfl⟩⟩
  · rcases h with ⟨t, rfl, ht⟩ | ⟨_, _, _, _, h, rfl, ⟨left, hl, rfl, rfl⟩, ⟨right, hr, rfl, rfl⟩⟩
    · exact ⟨.leaf c t, ht, rfl, rfl⟩
    · exact ⟨.node c left right, ⟨h, hl, hr⟩, rfl, rfl⟩

/-! ## From trees to rewriting -/

theorem Step.append_left (before : Form) {f f' : Form} (h : g.Step f f') :
    g.Step (before ++ f) (before ++ f') := by
  obtain ⟨left, right, h⟩ := h
  simpa only [List.append_assoc] using Step.rewrite (before ++ left) right h

theorem Step.append_right (after : Form) {f f' : Form} (h : g.Step f f') :
    g.Step (f ++ after) (f' ++ after) := by
  obtain ⟨left, right, h⟩ := h
  simpa only [List.append_assoc, List.cons_append] using Step.rewrite left (right ++ after) h

theorem step_alternative {c : Char} {a : Alternative} (h : a ∈ g.alternatives c) :
    g.Step [.nonterminal c] a.form := by
  simpa using Step.rewrite [] [] h

theorem rewrites_append {f f' h h' : Form} (hf : ReflTransGen g.Step f f')
    (hh : ReflTransGen g.Step h h') : ReflTransGen g.Step (f ++ h) (f' ++ h') :=
  (hf.lift (· ++ h) fun _ _ => Step.append_right h).trans
    (hh.lift (f' ++ ·) fun _ _ => Step.append_left f')

theorem rewrites_of_tree :
    ∀ {t : Tree}, t.Of g → ReflTransGen g.Step [.nonterminal t.symbol] (Word.form t.yield)
  | .leaf _ _, h => .single (step_alternative h)
  | .node _ left right, h => by
    have hl := rewrites_of_tree h.2.1
    have hr := rewrites_of_tree h.2.2
    simp only [Tree.yield, Word.form, List.map_append]
    exact .head (step_alternative h.1) (rewrites_append hl hr)

/-! ## From rewriting to trees -/

theorem spells_append {f f' : Form} {word : Word} :
    g.Spells (f ++ f') word ↔ ∃ u v, word = u ++ v ∧ g.Spells f u ∧ g.Spells f' v := by
  induction f generalizing word with
  | nil =>
    refine ⟨fun h => ?_, fun h => ?_⟩
    · exact ⟨[], word, rfl, rfl, h⟩
    · obtain ⟨_, v, rfl, rfl, h⟩ := h
      exact h
  | cons s f ih =>
    cases s with
    | terminal t =>
      simp only [List.cons_append, Spells, ih]
      refine ⟨fun h => ?_, fun h => ?_⟩
      · obtain ⟨_, rfl, u, v, rfl, hu, hv⟩ := h
        exact ⟨t :: u, v, rfl, ⟨u, rfl, hu⟩, hv⟩
      · obtain ⟨_, v, rfl, ⟨u, rfl, hu⟩, hv⟩ := h
        exact ⟨u ++ v, rfl, u, v, rfl, hu, hv⟩
    | nonterminal c =>
      simp only [List.cons_append, Spells, ih]
      refine ⟨fun h => ?_, fun h => ?_⟩
      · obtain ⟨p, _, rfl, hp, u, v, rfl, hu, hv⟩ := h
        exact ⟨p ++ u, v, (List.append_assoc ..).symm, ⟨p, u, rfl, hp, hu⟩, hv⟩
      · obtain ⟨_, v, rfl, ⟨p, u, rfl, hp, hu⟩, hv⟩ := h
        exact ⟨p, u ++ v, List.append_assoc .., hp, u, v, rfl, hu, hv⟩

theorem spells_form (word : Word) : g.Spells word.form word := by
  induction word with
  | nil => rfl
  | cons c word ih => exact ⟨word, rfl, ih⟩

theorem spells_nonterminal {c : Char} {word : Word} :
    g.Spells [.nonterminal c] word ↔ g.Derives c word := by
  simp [Spells]

theorem derives_of_spells_form {c : Char} {a : Alternative} {word : Word}
    (ha : a ∈ g.alternatives c) (h : g.Spells a.form word) : g.Derives c word := by
  rw [derives_iff]
  cases a with
  | letter t =>
    obtain ⟨_, rfl, rfl⟩ := h
    exact .inl ⟨t, rfl, ha⟩
  | pair b d =>
    obtain ⟨u, _, rfl, hu, v, _, rfl, hv, rfl⟩ := h
    exact .inr ⟨b, d, u, v, ha, by rw [List.append_nil], hu, hv⟩

/-- A step may be taken back: what is spelled after it was spelled before it. -/
theorem Spells.of_step {f f' : Form} {word : Word} (hs : g.Step f f') (h : g.Spells f' word) :
    g.Spells f word := by
  obtain ⟨before, after, ha⟩ := hs
  rw [List.append_assoc, spells_append] at h
  obtain ⟨u, _, rfl, hu, h⟩ := h
  obtain ⟨p, v, rfl, hp, hv⟩ := spells_append.1 h
  exact spells_append.2 ⟨u, p ++ v, rfl, hu, p, v, rfl, derives_of_spells_form ha hp, hv⟩

theorem spells_of_rewrites {f : Form} {word : Word} (h : ReflTransGen g.Step f word.form) :
    g.Spells f word := by
  -- backwards from the word, one step at a time
  induction h using ReflTransGen.head_induction_on with
  | refl => exact spells_form word
  | head hs _ ih => exact ih.of_step hs

theorem rewrites_iff_derives {c : Char} {word : Word} :
    ReflTransGen g.Step [.nonterminal c] word.form ↔ g.Derives c word := by
  refine ⟨fun h => ?_, fun h => ?_⟩
  · exact spells_nonterminal.1 (spells_of_rewrites h)
  · obtain ⟨t, ht, rfl, rfl⟩ := h
    exact rewrites_of_tree ht

end Grammar

end Chomsky
