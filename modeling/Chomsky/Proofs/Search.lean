import Chomsky.Proofs.Generated
import Chomsky.Proofs.Leftmost
import Mathlib.Algebra.BigOperators.Ring.List
import Mathlib.Algebra.Order.BigOperators.Group.List
import Mathlib.Algebra.Order.Ring.Nat

/-!
# The search for all words

The words of a grammar up to some length can be found without a table: forms are taken off a stack,
those seen before or too long are dropped, and the others give way to what their leftmost
nonterminal can be replaced by, until only words are left. A step either makes a form longer or
turns one of its nonterminals into a letter, so the search ends. It finds exactly the words that
leftmost rewriting reaches within the limit (`mem_wordsWithin_iff`), and these are the words that
are derived (`isDerived_iff_leftmost`).
-/

namespace Chomsky

/-- The character of a symbol, letter or nonterminal. -/
def Symbol.char : Symbol → Char
  | terminal c => c
  | nonterminal c => c

namespace Form

/-- The characters of a form; once no nonterminal is left, they are a word. -/
def word (f : Form) : Word := f.map Symbol.char

theorem word_form (word : Word) : Form.word word.form = word := by
  simp [Form.word, Word.form, Function.comp_def, Symbol.char]

/-- The length of a form with its letters counted twice, which every step of rewriting raises. -/
def progress : Form → Nat
  | [] => 0
  | .terminal _ :: f => progress f + 2
  | .nonterminal _ :: f => progress f + 1

theorem progress_append (f f' : Form) : progress (f ++ f') = progress f + progress f' := by
  induction f with
  | nil => simp [progress]
  | cons s f ih =>
    cases s <;> simp only [List.cons_append, progress, ih] <;> omega

theorem progress_le (f : Form) : progress f ≤ 2 * f.length := by
  induction f with
  | nil => simp [progress]
  | cons s f ih =>
    cases s <;> simp only [progress, List.length_cons] <;> omega

theorem word_or_leftmost (f : Form) : (∃ word : Word, f = word.form)
    ∨ ∃ (read : Word) (c : Char) (after : Form), f = read.form ++ .nonterminal c :: after := by
  induction f with
  | nil => exact .inl ⟨[], rfl⟩
  | cons s f ih =>
    cases s with
    | nonterminal c => exact .inr ⟨[], c, f, rfl⟩
    | terminal t =>
      rcases ih with ⟨word, rfl⟩ | ⟨read, c, after, rfl⟩
      · exact .inl ⟨t :: word, rfl⟩
      · exact .inr ⟨t :: read, c, after, rfl⟩

end Form

namespace Grammar

open Relation

variable {g : Grammar} {limit : Nat} {f f' : Form} {word : Word}

/-! ## Expanding a form -/

/-- What the replacement of its leftmost nonterminal makes of a form, if it has one. -/
def expansions (g : Grammar) : Form → Option (List Form)
  | [] => none
  | .terminal t :: f => (g.expansions f).map fun fs => fs.map (.terminal t :: ·)
  | .nonterminal c :: f => some ((g.alternatives c).map fun a => a.form ++ f)

theorem expansions_form (word : Word) : g.expansions word.form = none := by
  induction word with
  | nil => rfl
  | cons t word ih =>
    change (g.expansions (Word.form word)).map _ = none
    rw [ih, Option.map_none]

theorem expansions_leftmost (read : Word) (c : Char) (after : Form) :
    g.expansions (read.form ++ .nonterminal c :: after) =
      some ((g.alternatives c).map fun a => read.form ++ a.form ++ after) := by
  induction read with
  | nil => rfl
  | cons t read ih =>
    change (g.expansions (Word.form read ++ .nonterminal c :: after)).map _ = _
    rw [ih, Option.map_some, List.map_map]
    rfl

theorem eq_form_of_expansions (h : g.expansions f = none) : ∃ word : Word, f = word.form := by
  rcases f.word_or_leftmost with hf | ⟨read, c, after, rfl⟩
  · exact hf
  · rw [expansions_leftmost] at h
    cases h

theorem eq_leftmost_of_expansions {fs : List Form} (h : g.expansions f = some fs) :
    ∃ (read : Word) (c : Char) (after : Form), f = read.form ++ .nonterminal c :: after
      ∧ fs = (g.alternatives c).map fun a => read.form ++ a.form ++ after := by
  rcases f.word_or_leftmost with ⟨word, rfl⟩ | ⟨read, c, after, rfl⟩
  · rw [expansions_form] at h
    cases h
  · rw [expansions_leftmost] at h
    exact ⟨read, c, after, rfl, (Option.some.inj h).symm⟩

theorem leftmostStep_iff :
    g.LeftmostStep f f' ↔ ∃ fs, g.expansions f = some fs ∧ f' ∈ fs := by
  refine ⟨fun h => ?_, fun ⟨fs, hfs, hm⟩ => ?_⟩
  · obtain ⟨read, after, ha⟩ := h
    exact ⟨_, expansions_leftmost read _ after, List.mem_map.2 ⟨_, ha, rfl⟩⟩
  · obtain ⟨read, c, after, rfl, rfl⟩ := eq_leftmost_of_expansions hfs
    obtain ⟨a, ha, rfl⟩ := List.mem_map.1 hm
    exact .rewrite read after ha

/-! ## The search ends -/

/-- What a form costs the search: more than all that it gives way to. -/
def weight (g : Grammar) (limit : Nat) (f : Form) : Nat :=
  (g.rules.length + 1) ^ (2 * limit + 1 - f.progress)

theorem weight_pos (limit : Nat) (f : Form) : 0 < g.weight limit f := Nat.pow_pos (Nat.succ_pos _)

theorem LeftmostStep.progress_eq (h : g.LeftmostStep f f') : f'.progress = f.progress + 1 := by
  obtain ⟨read, after, ha⟩ := h
  rename_i c a
  cases a <;> simp only [Form.progress_append, Alternative.form, Form.progress] <;> omega

theorem LeftmostStep.weight_eq (h : g.LeftmostStep f f') (hl : f.length ≤ limit) :
    g.weight limit f = (g.rules.length + 1) * g.weight limit f' := by
  have hp := f.progress_le
  have he : 2 * limit + 1 - f.progress = (2 * limit + 1 - f'.progress) + 1 := by
    rw [h.progress_eq]
    omega
  rw [weight, he, Nat.pow_succ', weight]

theorem length_alternatives_le (c : Char) : (g.alternatives c).length ≤ g.rules.length := by
  unfold alternatives
  split
  · rename_i group hg
    have hm := List.mem_of_find?_eq_some hg
    rw [rules, List.length_flatMap]
    have hle := List.le_sum_of_mem (List.mem_map_of_mem (f := fun group : RuleGroup =>
      (group.alternatives.map (group.symbol, ·)).length) hm)
    simpa using hle
  · exact Nat.zero_le _

theorem sum_weight_lt {fs : List Form} (h : g.expansions f = some fs) (hl : f.length ≤ limit) :
    (fs.map (g.weight limit)).sum < g.weight limit f := by
  have hlen : fs.length ≤ g.rules.length := by
    obtain ⟨read, c, after, -, rfl⟩ := eq_leftmost_of_expansions h
    simpa using g.length_alternatives_le c
  refine Nat.lt_of_mul_lt_mul_left (a := g.rules.length + 1) ?_
  calc (g.rules.length + 1) * (fs.map (g.weight limit)).sum
      = (fs.map fun f' => (g.rules.length + 1) * g.weight limit f').sum :=
        (List.sum_map_mul_left ..).symm
    _ = (fs.map fun _ => g.weight limit f).sum := by
        rw [List.map_congr_left fun f' hf' => ((leftmostStep_iff.2 ⟨fs, h, hf'⟩).weight_eq hl).symm]
    _ = fs.length * g.weight limit f := by rw [List.map_const', List.sum_replicate_nat]
    _ < (g.rules.length + 1) * g.weight limit f :=
        Nat.mul_lt_mul_of_pos_right (Nat.lt_succ_of_le hlen) (weight_pos limit f)

/-- Takes the forms of a stack one after the other, with the forms seen and the words found so
far. -/
def search (g : Grammar) (limit : Nat) (seen : List Form) (found : List Word) :
    List Form → List Word
  | [] => found
  | f :: stack =>
    if limit < f.length ∨ f ∈ seen then g.search limit seen found stack
    else match _ : g.expansions f with
      | none => g.search limit (f :: seen) (f.word :: found) stack
      | some fs => g.search limit (f :: seen) found (fs.reverse ++ stack)
termination_by stack => (stack.map (g.weight limit)).sum
decreasing_by
  · have := g.weight_pos limit f
    simp only [List.map_cons, List.sum_cons]
    omega
  · have := g.weight_pos limit f
    simp only [List.map_cons, List.sum_cons]
    omega
  · rename_i hf h
    have hl : f.length ≤ limit := by omega
    have := sum_weight_lt h hl
    simp only [List.map_append, List.map_reverse, List.sum_append, List.sum_reverse, List.map_cons,
      List.sum_cons]
    omega

/-- All words of at most `limit` letters that the search finds from the start symbol. -/
def wordsWithin (g : Grammar) (limit : Nat) : List Word :=
  match g.start with
  | none => []
  | some start => g.search limit [] [] [[.nonterminal start]]

/-! ## What the search finds -/

theorem of_mem_search {seen stack : List Form} {found : List Word}
    (h : word ∈ g.search limit seen found stack) : word ∈ found
      ∨ ∃ f ∈ stack, f.length ≤ limit ∧ ReflTransGen (g.LeftmostWithin limit) f word.form := by
  fun_induction search g limit seen found stack with
  | case1 => exact .inl h
  | case2 seen found f stack hf ih =>
    exact (ih h).imp_right fun ⟨f', hm, hf'⟩ => ⟨f', List.mem_cons_of_mem f hm, hf'⟩
  | case3 seen found f stack hf hx ih =>
    rcases ih h with hm | ⟨f', hm, hf'⟩
    · rcases List.mem_cons.1 hm with rfl | hm
      · obtain ⟨w, rfl⟩ := eq_form_of_expansions hx
        rw [Form.word_form]
        exact .inr ⟨_, List.mem_cons_self, by omega, .refl⟩
      · exact .inl hm
    · exact .inr ⟨f', List.mem_cons_of_mem f hm, hf'⟩
  | case4 seen found f stack hf fs hx ih =>
    rcases ih h with hm | ⟨f', hm, hl, hr⟩
    · exact .inl hm
    · rcases List.mem_append.1 hm with hm | hm
      · have hs := leftmostStep_iff.2 ⟨fs, hx, List.mem_reverse.1 hm⟩
        exact .inr ⟨f, List.mem_cons_self, by omega, hr.head ⟨hs, by omega, hl⟩⟩
      · exact .inr ⟨f', List.mem_cons_of_mem f hm, hl, hr⟩

/-- What the search keeps: the words among the forms seen are found, and a step from a form seen
leads to one that is seen or waits on the stack. -/
structure Settled (g : Grammar) (limit : Nat) (seen : List Form) (found : List Word)
    (stack : List Form) : Prop where
  words : ∀ word : Word, word.form ∈ seen → word ∈ found
  steps : ∀ f ∈ seen, ∀ f', g.LeftmostWithin limit f f' → f' ∈ seen ∨ f' ∈ stack

variable {seen stack : List Form} {found : List Word}

theorem mem_of_skip {x : Form} (hf : limit < f.length ∨ f ∈ seen) (hl : x.length ≤ limit)
    (hx : x ∈ seen ∨ x ∈ f :: stack) : x ∈ seen ∨ x ∈ stack := by
  rcases hx with hx | hx
  · exact .inl hx
  · rcases List.mem_cons.1 hx with rfl | hx
    · exact .inl (hf.resolve_left (by omega))
    · exact .inr hx

theorem Settled.skip (h : g.Settled limit seen found (f :: stack))
    (hf : limit < f.length ∨ f ∈ seen) : g.Settled limit seen found stack where
  words := h.words
  steps x hx f' hs := mem_of_skip hf hs.2.2 (h.steps x hx f' hs)

theorem mem_of_see (rest : List Form) {x : Form} (hx : x ∈ seen ∨ x ∈ f :: stack) :
    x ∈ f :: seen ∨ x ∈ rest ++ stack := by
  rcases hx with hx | hx
  · exact .inl (List.mem_cons_of_mem f hx)
  · rcases List.mem_cons.1 hx with rfl | hx
    · exact .inl List.mem_cons_self
    · exact .inr (List.mem_append_right rest hx)

theorem Settled.find (h : g.Settled limit seen found (f :: stack)) (hf : g.expansions f = none) :
    g.Settled limit (f :: seen) (f.word :: found) stack where
  words w hw := by
    rcases List.mem_cons.1 hw with rfl | hw
    · rw [Form.word_form]
      exact List.mem_cons_self
    · exact List.mem_cons_of_mem _ (h.words w hw)
  steps x hx f' hs := by
    rcases List.mem_cons.1 hx with rfl | hx
    · obtain ⟨fs, hfs, -⟩ := leftmostStep_iff.1 hs.1
      rw [hf] at hfs
      cases hfs
    · exact mem_of_see [] (h.steps x hx f' hs)

theorem Settled.expand (h : g.Settled limit seen found (f :: stack)) {fs : List Form}
    (hf : g.expansions f = some fs) :
    g.Settled limit (f :: seen) found (fs.reverse ++ stack) where
  words w hw := by
    rcases List.mem_cons.1 hw with rfl | hw
    · rw [expansions_form] at hf
      cases hf
    · exact h.words w hw
  steps x hx f' hs := by
    rcases List.mem_cons.1 hx with rfl | hx
    · obtain ⟨_, hfs, hm⟩ := leftmostStep_iff.1 hs.1
      cases hf.symm.trans hfs
      exact .inr (List.mem_append_left _ (List.mem_reverse.2 hm))
    · exact mem_of_see fs.reverse (h.steps x hx f' hs)

theorem Settled.mem_search (h : g.Settled limit seen found stack) (hf : f ∈ seen ∨ f ∈ stack)
    (hl : f.length ≤ limit) (hr : ReflTransGen (g.LeftmostWithin limit) f word.form) :
    word ∈ g.search limit seen found stack := by
  fun_induction search g limit seen found stack with
  | case1 seen found =>
    -- the stack is empty, so the forms seen are closed under steps
    replace hf := hf.resolve_right List.not_mem_nil
    induction hr using ReflTransGen.head_induction_on with
    | refl => exact h.words word hf
    | head hs _ ih =>
      exact ih hs.2.2 ((h.steps _ hf _ hs).resolve_right List.not_mem_nil)
  | case2 seen found x stack hx ih => exact ih (h.skip hx) (mem_of_skip hx hl hf)
  | case3 seen found x stack hx he ih => exact ih (h.find he) (mem_of_see [] hf)
  | case4 seen found x stack hx fs he ih => exact ih (h.expand he) (mem_of_see fs.reverse hf)

theorem mem_wordsWithin_iff : word ∈ g.wordsWithin limit ↔ ∃ start, g.start = some start
    ∧ ReflTransGen (g.LeftmostWithin limit) [.nonterminal start] word.form := by
  unfold wordsWithin
  rcases g.start with _ | start
  · simp
  · simp only [Option.some.injEq, exists_eq_left']
    refine ⟨fun h => ?_, fun h => ?_⟩
    · obtain ⟨f, hm, -, hr⟩ := (of_mem_search h).resolve_left List.not_mem_nil
      rwa [List.mem_singleton.1 hm] at hr
    · have hstart : g.Settled limit [] [] [[.nonterminal start]] := ⟨by simp, by simp⟩
      refine hstart.mem_search (.inr List.mem_cons_self) ?_ h
      -- the start symbol alone is not a word, so a step leaves it
      rcases h.cases_head with he | ⟨f, hs, -⟩
      · rcases word with _ | ⟨t, word⟩ <;> cases he
      · exact hs.2.1

/-- A word over the terminals is accepted exactly if the start symbol can be rewritten to it with
the leftmost nonterminal replaced at every step and no form longer than the word. So every limit
that lets the word through leaves the answer to the search for all words. -/
theorem isDerived_iff_leftmost (hg : g.Reachable) (ht : g.terminals ≠ [])
    (hp : g.hasProductions = true) {start : Char} (hs : g.start = some start)
    (hw : ∀ c ∈ word, c ∈ g.terminals) :
    (g.isDerived word = .ok true ↔
        ReflTransGen (g.LeftmostWithin word.length) [.nonterminal start] word.form)
      ∧ ∀ limit, word.length ≤ limit →
        (ReflTransGen (g.LeftmostWithin limit) [.nonterminal start] word.form ↔
          ReflTransGen (g.LeftmostWithin word.length) [.nonterminal start] word.form)
        ∧ g.isDerived word = .ok (decide (word ∈ g.wordsWithin limit)) := by
  have hd : g.isDerived word = .ok true ↔ _ := hg.consistent.isDerived_eq_true_iff
  simp only [ht, hp, hs, ne_eq, not_false_eq_true, Option.some.injEq, exists_eq_left',
    true_and] at hd
  refine ⟨hd.trans (leftmostWithin_iff_derives le_rfl).symm, fun limit hl => ⟨?_, ?_⟩⟩
  · rw [leftmostWithin_iff_derives hl, leftmostWithin_iff_derives le_rfl]
  · have hq : g.checkQuery word = .ok start := checkQuery_eq_ok_iff.2 ⟨ht, hp, hs, hw⟩
    refine isDerived_eq_ok_iff.2 ⟨start, hq, ?_⟩
    rw [Bool.eq_iff_iff, decide_eq_true_iff, hg.consistent.derivesWord_table, mem_wordsWithin_iff]
    simp only [hs, Option.some.injEq, exists_eq_left', leftmostWithin_iff_derives hl]

theorem isDerived_leftmost_sample : sample.Reachable
    ∧ sample.isDerived ['a', 'b', 'b'] = .ok true
    ∧ ReflTransGen (sample.LeftmostWithin 3) [.nonterminal 'S'] (Word.form ['a', 'b', 'b'])
    ∧ ['a', 'b', 'b'] ∈ sample.wordsWithin 5 := by
  have h : sample.isDerived ['a', 'b', 'b'] = .ok true := by decide +kernel
  have hs : sample.start = some 'S' := by decide +kernel
  have ht : sample.terminals = ['a', 'b'] := by decide +kernel
  have hw : ∀ c ∈ ['a', 'b', 'b'], c ∈ sample.terminals := by simp [ht]
  have hiff := isDerived_iff_leftmost reachable_sample (by decide +kernel) (by decide +kernel) hs hw
  have hfound := (hiff.2 5 (by decide)).2
  rw [h, Except.ok.injEq] at hfound
  exact ⟨reachable_sample, h, hiff.1.1 h, of_decide_eq_true hfound.symm⟩

end Grammar

end Chomsky
