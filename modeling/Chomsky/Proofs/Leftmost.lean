import Chomsky.Proofs.Derivation

/-!
# Leftmost rewriting

A word that is derived can be reached by replacing the leftmost nonterminal at every step, and no
form on the way need be longer than the word (`leftmostWithin_iff_derives`). The tree is rewritten
from the left, so a form on the way is the letters read so far and the nonterminals that wait behind
them, and each of these stands for at least one letter that is still to come.
-/

namespace Chomsky

namespace Grammar

open Relation

/-- A step of rewriting with only letters before the nonterminal that is replaced. -/
inductive LeftmostStep (g : Grammar) : Form → Form → Prop
  | rewrite (read : Word) (after : Form) {c : Char} {a : Alternative}
    (h : a ∈ g.alternatives c) :
    LeftmostStep g (read.form ++ .nonterminal c :: after) (read.form ++ a.form ++ after)

/-- A leftmost step between forms of at most `limit` symbols. -/
def LeftmostWithin (g : Grammar) (limit : Nat) (f f' : Form) : Prop :=
  g.LeftmostStep f f' ∧ f.length ≤ limit ∧ f'.length ≤ limit

variable {g : Grammar} {limit : Nat} {f f' : Form} {word : Word}

theorem LeftmostStep.step (h : g.LeftmostStep f f') : g.Step f f' := by
  obtain ⟨read, after, ha⟩ := h
  exact .rewrite read.form after ha

theorem leftmostWithin_rewrite (read : Word) (after : Form) {c : Char} {a : Alternative}
    (ha : a ∈ g.alternatives c) (hl : read.length + a.form.length + after.length ≤ limit) :
    g.LeftmostWithin limit (read.form ++ .nonterminal c :: after)
      (read.form ++ a.form ++ after) := by
  have hpos : 0 < a.form.length := by cases a <;> simp [Alternative.form]
  refine ⟨.rewrite read after ha, ?_, ?_⟩
  all_goals
    simp only [List.length_append, List.length_cons, Word.form, List.length_map]
    omega

/-- A tree is rewritten between the letters read before it and the form that waits behind it. -/
theorem leftmost_of_tree (limit : Nat) : ∀ {t : Tree} (read : Word) (after : Form), t.Of g →
    read.length + t.yield.length + after.length ≤ limit →
    ReflTransGen (g.LeftmostWithin limit) (read.form ++ .nonterminal t.symbol :: after)
      ((read ++ t.yield).form ++ after)
  | .leaf c t, read, after, h, hl => by
    have hs := leftmostWithin_rewrite read after h hl
    simpa [Word.form, Tree.yield, Tree.symbol, Alternative.form] using ReflTransGen.single hs
  | .node c left right, read, after, h, hl => by
    have hlpos := left.length_yield_pos
    have hrpos := right.length_yield_pos
    simp only [Tree.yield, List.length_append] at hl
    have hs : g.LeftmostWithin limit (read.form ++ .nonterminal c :: after)
        (read.form ++ .nonterminal left.symbol :: .nonterminal right.symbol :: after) := by
      have hbound : read.length + 2 + after.length ≤ limit := by omega
      simpa [Alternative.form] using leftmostWithin_rewrite read after h.1 hbound
    have hleft := leftmost_of_tree limit read (.nonterminal right.symbol :: after) h.2.1 (by
      simp only [List.length_cons]
      omega)
    have hright := leftmost_of_tree limit (read ++ left.yield) after h.2.2 (by
      simp only [List.length_append]
      omega)
    rw [List.append_assoc] at hright
    exact .head hs (hleft.trans hright)

theorem derives_of_leftmost {c : Char}
    (h : ReflTransGen (g.LeftmostWithin limit) [.nonterminal c] word.form) : g.Derives c word :=
  rewrites_iff_derives.1 (h.lift id fun _ _ hs => hs.1.step)

/-- A limit that lets the word through lets one of its derivations through. -/
theorem leftmostWithin_iff_derives {c : Char} (hl : word.length ≤ limit) :
    ReflTransGen (g.LeftmostWithin limit) [.nonterminal c] word.form ↔ g.Derives c word := by
  refine ⟨derives_of_leftmost, fun h => ?_⟩
  obtain ⟨t, ht, rfl, rfl⟩ := h
  have hrun := leftmost_of_tree limit [] [] ht (by simpa using hl)
  simpa [Word.form] using hrun

end Grammar

end Chomsky
