import Chomsky.Proofs.Generated

/-!
# Generation does not get stuck

A run calls itself for the parts of every pair it picks. A call can choose if its nonterminal has a
height and some alternative is open, and only a call that cannot choose fails a run
(`exists_stuck_of_fails`). A call can choose exactly if its nonterminal derives a word
(`canChoose_iff`): the height of a nonterminal is the height of one of its alternatives, so the
depth limit never closes all of them. The parts of an open alternative derive words too
(`Reaches.productive`). So a run from a nonterminal that derives a word never fails, and a run from
one that does not fails at once.
-/

namespace Chomsky

namespace Generation

/-- Whether a computation fails on a source for this reason and leaves the source like that. -/
def Fails {α : Type} (x : Generation α) (s : Source) (e : GenerateError) (s' : Source) : Prop :=
  x.run s = some (.error e, s')

variable {α β : Type} {s s' : Source} {e : GenerateError}

@[simp] theorem fails_pure {a : α} : ¬ Fails (pure a : Generation α) s e s' := by
  change ¬ some (Except.ok a, s) = some (.error e, s')
  simp

@[simp] theorem fails_throw {e' : GenerateError} :
    Fails (throw e' : Generation α) s e s' ↔ e = e' ∧ s' = s := by
  change some (Except.error e', s) = some (.error e, s') ↔ _
  simp [eq_comm]

theorem Yields.not_fails {x : Generation α} {a : α} {s₁ s₂ : Source} (h : Yields x s a s₁) :
    ¬ Fails x s e s₂ := by
  intro hfails
  cases h.symm.trans hfails

theorem fails_bind {x : Generation α} {f : α → Generation β} :
    Fails (x >>= f) s e s' ↔ Fails x s e s' ∨ ∃ a s₁, Yields x s a s₁ ∧ Fails (f a) s₁ e s' := by
  rw [Fails, run_bind, Option.bind_eq_some_iff]
  refine ⟨fun ⟨p, hp, h⟩ => ?_, fun h => ?_⟩
  · rcases p with ⟨e' | a, s₁⟩
    · cases h
      exact .inl hp
    · exact .inr ⟨a, s₁, hp, h⟩
  · rcases h with h | ⟨a, s₁, hx, hf⟩
    · exact ⟨_, h, rfl⟩
    · exact ⟨_, hx, hf⟩

theorem fails_map {x : Generation α} {f : α → β} : Fails (f <$> x) s e s' ↔ Fails x s e s' := by
  rw [map_eq_pure_bind, fails_bind]
  simp

@[simp] theorem fails_lift {m : StateT Source Option α} : ¬ Fails (ExceptT.lift m) s e s' := by
  rw [Fails, run_lift]
  simp

@[simp] theorem fails_chooseAmong {things : List α} : ¬ Fails (chooseAmong things) s e s' := by
  unfold chooseAmong
  split_ifs <;> simp [fails_map]

/-- Only from nothing is nothing chosen, and then no number is drawn. -/
theorem yields_chooseAmong_none {things : List α} :
    Yields (chooseAmong things) s none s' ↔ things = [] ∧ s' = s := by
  unfold chooseAmong
  split_ifs with he
  · simp [List.isEmpty_iff.1 he, eq_comm]
  · rw [List.isEmpty_iff] at he
    refine iff_of_false (fun h => ?_) fun h => he h.1
    obtain ⟨i, hi, hnone⟩ := yields_map.1 h
    have hlt := Source.lt_of_choose (List.length_pos_iff.2 he) (yields_lift.1 hi)
    rw [List.getElem?_eq_getElem hlt] at hnone
    cases hnone

end Generation

namespace Grammar

open Generation

/-- A call in a run: its free levels, its nonterminal, and the source as the call finds it. -/
structure Call where
  free : Nat
  symbol : Char
  source : Source

/-- Whether a run that begins with one call comes to another. -/
inductive Reaches (g : Grammar) (H : Heights) : Call → Call → Prop
  | here (call : Call) : Reaches g H call call
  | left {free : Nat} {c b d : Char} {s s₁ : Source} {call : Call}
    (pick : g.Picks H free c s (.pair b d) s₁) (reaches : Reaches g H ⟨free - 1, b, s₁⟩ call) :
    Reaches g H ⟨free, c, s⟩ call
  | right {free : Nat} {c b d : Char} {left : Tree} {s s₁ s₂ : Source} {call : Call}
    (pick : g.Picks H free c s (.pair b d) s₁) (left_grows : g.Grows H (free - 1) b s₁ left s₂)
    (reaches : Reaches g H ⟨free - 1, d, s₂⟩ call) : Reaches g H ⟨free, c, s⟩ call

/-- Whether the nonterminal of a call has a height and some alternative is open to it. -/
def CanChoose (g : Grammar) (H : Heights) (call : Call) : Prop :=
  ∃ height, H.of? call.symbol = some height
    ∧ openAlternatives H call.free height (g.alternatives call.symbol) ≠ []

/-- Whether a call has alternatives to choose among, but the choice is given up. -/
def GivesUp (g : Grammar) (H : Heights) (call : Call) : Prop :=
  ∃ height, H.of? call.symbol = some height
    ∧ openAlternatives H call.free height (g.alternatives call.symbol) ≠ []
    ∧ call.source.choose
      (openAlternatives H call.free height (g.alternatives call.symbol)).length = none

variable {g : Grammar} {H : Heights} {free levels n : Nat} {c : Char} {s s' : Source}
  {e : GenerateError} {call : Call}

/-! ## What fails a run -/

/-- One call fails at once if it cannot choose, and otherwise through one of its parts. -/
theorem fails_growWithin_succ : Fails (g.growWithin H (levels + 1) free c) s e s' ↔
    (¬ g.CanChoose H ⟨free, c, s⟩ ∧ e = .unproductive c ∧ s' = s)
      ∨ ∃ b d s₁, g.Picks H free c s (.pair b d) s₁
        ∧ (Fails (g.growWithin H levels (free - 1) b) s₁ e s'
          ∨ ∃ left s₂, Yields (g.growWithin H levels (free - 1) b) s₁ left s₂
            ∧ Fails (g.growWithin H levels (free - 1) d) s₂ e s') := by
  rw [growWithin]
  unfold CanChoose Picks
  rcases hc : H.of? c with _ | height
  · simp
  · simp only [fails_bind, fails_chooseAmong, false_or, Option.some.injEq, exists_eq_left']
    refine ⟨fun h => ?_, fun h => ?_⟩
    · obtain ⟨_ | a, s₁, hpick, h⟩ := h
      · obtain ⟨hnil, rfl⟩ := yields_chooseAmong_none.1 hpick
        exact .inl ⟨not_not.2 hnil, fails_throw.1 h⟩
      · cases a with
        | letter x => exact absurd h fails_pure
        | pair b d =>
          refine .inr ⟨b, d, s₁, hpick, ?_⟩
          simpa [fails_bind, fails_map] using h
    · rcases h with ⟨hnil, he⟩ | ⟨b, d, s₁, hpick, h⟩
      · exact ⟨none, s, yields_chooseAmong_none.2 ⟨not_not.1 hnil, rfl⟩, fails_throw.2 he⟩
      · refine ⟨some (.pair b d), s₁, hpick, ?_⟩
        simpa [fails_bind, fails_map] using h

theorem exists_stuck_of_fails (h : Fails (g.growWithin H levels free c) s e s') :
    ∃ call, g.Reaches H ⟨free, c, s⟩ call ∧ ¬ g.CanChoose H call
      ∧ e = .unproductive call.symbol ∧ s' = call.source := by
  -- with no level left a run has no outcome at all
  induction levels generalizing free c s with
  | zero => cases h
  | succ levels ih =>
    rcases fails_growWithin_succ.1 h with ⟨hstuck, he, hs⟩ | ⟨b, d, s₁, pick, h | ⟨left, s₂, hl, h⟩⟩
    · exact ⟨_, .here _, hstuck, he, hs⟩
    · obtain ⟨call, hcall, hstuck⟩ := ih h
      exact ⟨call, .left pick hcall, hstuck⟩
    · obtain ⟨call, hcall, hstuck⟩ := ih h
      exact ⟨call, .right pick (yields_growWithin_iff.1 hl).1 hcall, hstuck⟩

/-! ## Calls that can choose -/

theorem exists_word_iff (hn : g.nonterminals.Nodup) :
    (∃ word, g.Derives c word) ↔ ∃ n, g.heights.of? c = some n := by
  simp only [of?_heights_iff hn]
  refine ⟨fun h => ?_, fun h => ?_⟩
  · obtain ⟨_, t, ht, rfl, -⟩ := h
    obtain ⟨n, -, hmin⟩ := exists_minHeight ht
    exact ⟨n, hmin⟩
  · obtain ⟨n, ⟨t, ht, hc, -⟩, -⟩ := h
    exact ⟨t.yield, t, ht, hc, rfl⟩

/-- The height of a nonterminal is the height of one of its alternatives. -/
theorem exists_lowest (hn : g.nonterminals.Nodup) (h : g.heights.of? c = some n) :
    ∃ a ∈ g.alternatives c, g.heights.ofAlternative? a = some n := by
  obtain ⟨t, ht, rfl, rfl⟩ := heights_realised hn c n h
  obtain ⟨m, hm, ha⟩ := (heights_covers hn t.height).ofAlternative? ht (Nat.le_succ _)
  obtain ⟨u, hu, hs, rfl⟩ := (heights_realised hn).ofAlternative? ht.alternative_mem ha
  have hle := ((of?_heights_iff hn).1 h).le hu hs
  exact ⟨_, ht.alternative_mem, by rw [ha, le_antisymm hm hle]⟩

theorem canChoose_iff (hn : g.nonterminals.Nodup) :
    g.CanChoose g.heights call ↔ ∃ word, g.Derives call.symbol word := by
  rw [exists_word_iff hn]
  refine ⟨fun ⟨n, h, _⟩ => ⟨n, h⟩, fun ⟨n, h⟩ => ⟨n, h, ?_⟩⟩
  obtain ⟨a, ha, hlow⟩ := exists_lowest hn h
  exact List.ne_nil_of_mem (mem_openAlternatives_iff.2 ⟨ha, n, hlow, .inr rfl⟩)

theorem Picks.productive (hn : g.nonterminals.Nodup) {b d : Char}
    (h : g.Picks g.heights free c s (.pair b d) s') :
    (∃ word, g.Derives b word) ∧ ∃ word, g.Derives d word := by
  obtain ⟨-, _, _, -, ha, -⟩ := h.openTo
  obtain ⟨l, r, hl, hr, -⟩ := Heights.ofAlternative?_pair_eq_some.1 ha
  exact ⟨(exists_word_iff hn).2 ⟨l, hl⟩, (exists_word_iff hn).2 ⟨r, hr⟩⟩

theorem Reaches.productive (hn : g.nonterminals.Nodup) {root : Call}
    (h : g.Reaches g.heights root call) (hroot : ∃ word, g.Derives root.symbol word) :
    ∃ word, g.Derives call.symbol word := by
  induction h with
  | here => exact hroot
  | left pick _ ih => exact ih (pick.productive hn).1
  | right pick _ _ ih => exact ih (pick.productive hn).2

theorem Reaches.canChoose (hn : g.nonterminals.Nodup) {root : Call}
    (h : g.Reaches g.heights root call) (hroot : ∃ word, g.Derives root.symbol word) :
    g.CanChoose g.heights call :=
  (canChoose_iff hn).2 (h.productive hn hroot)

/-! ## Growing as long as choices are made -/

theorem picks_or_givesUp (hn : g.nonterminals.Nodup) (hc : g.heights.of? c = some n) (free : Nat)
    (s : Source) :
    (∃ a s', g.Picks g.heights free c s a s') ∨ g.GivesUp g.heights ⟨free, c, s⟩ := by
  have hcan : g.CanChoose g.heights ⟨free, c, s⟩ :=
    (canChoose_iff hn).2 ((exists_word_iff hn).2 ⟨n, hc⟩)
  obtain ⟨height, hh, hne⟩ := hcan
  rcases hi : s.choose (openAlternatives g.heights free height (g.alternatives c)).length
    with _ | ⟨i, s'⟩
  · exact .inr ⟨height, hh, hne, hi⟩
  · have hlt := Source.lt_of_choose (List.length_pos_iff.2 hne) hi
    exact .inl ⟨_, s', height, hh, yields_chooseAmong.2 ⟨i, hi, List.getElem?_eq_getElem hlt⟩⟩

/-- A run from a nonterminal with a height grows a tree, unless one of its choices is given up: with
every level the parts have one free level less or, when none is left, smaller heights. -/
theorem grows_or_givesUp (hn : g.nonterminals.Nodup) (free n : Nat) {c : Char}
    (hc : g.heights.of? c = some n) (s : Source) :
    (∃ t s', g.Grows g.heights free c s t s')
      ∨ ∃ call, g.Reaches g.heights ⟨free, c, s⟩ call ∧ g.GivesUp g.heights call := by
  rcases picks_or_givesUp hn hc free s with ⟨a, s₁, pick⟩ | hgive
  · rcases a with x | ⟨b, d⟩
    · exact .inl ⟨_, _, .leaf pick⟩
    · obtain ⟨-, _, m, hc', ha, hfree⟩ := pick.openTo
      cases hc.symm.trans hc'
      obtain ⟨l, r, hl, hr, rfl⟩ := Heights.ofAlternative?_pair_eq_some.1 ha
      rcases grows_or_givesUp hn (free - 1) l hl s₁ with ⟨left, s₂, hleft⟩ | ⟨call, hcall, hgive⟩
      · rcases grows_or_givesUp hn (free - 1) r hr s₂ with
          ⟨right, s₃, hright⟩ | ⟨call, hcall, hgive⟩
        · exact .inl ⟨_, _, .node pick hleft hright⟩
        · exact .inr ⟨call, .right pick hleft hcall, hgive⟩
      · exact .inr ⟨call, .left pick hcall, hgive⟩
  · exact .inr ⟨_, .here _, hgive⟩
termination_by (free, n)
decreasing_by all_goals exact Prod.lex_def.2 (by omega)

/-! ## Failures -/

variable {maxDepth : Nat}

theorem fails_generateFrom_iff (hn : g.nonterminals.Nodup) :
    Fails (g.generateFrom c maxDepth) s e s' ↔
      (¬ ∃ word, g.Derives c word) ∧ e = .unproductive c ∧ s' = s := by
  rw [generateFrom_eq, fails_map]
  unfold growFrom
  refine ⟨fun h => ?_, fun ⟨hword, he⟩ => ?_⟩
  · have hword : ¬ ∃ word, g.Derives c word := by
      intro hword
      obtain ⟨call, hcall, hstuck, -⟩ := exists_stuck_of_fails h
      exact hstuck (hcall.canChoose hn hword)
    rcases fails_growWithin_succ.1 h with ⟨-, he⟩ | ⟨b, d, s₁, pick, -⟩
    · exact ⟨hword, he⟩
    · obtain ⟨-, height, -, hc, -⟩ := pick.openTo
      exact absurd ((exists_word_iff hn).2 ⟨height, hc⟩) hword
  · exact fails_growWithin_succ.2 (.inl ⟨fun hcan => hword ((canChoose_iff hn).1 hcan), he⟩)

theorem fails_generate_iff : Fails (g.generate maxDepth) s e s' ↔
    (¬ (g.terminals ≠ [] ∧ g.hasProductions = true) ∧ e = .emptyGrammar ∧ s' = s)
      ∨ g.terminals ≠ [] ∧ g.hasProductions = true
        ∧ ((g.start = none ∧ e = .noStartSymbol ∧ s' = s)
          ∨ ∃ start, g.start = some start ∧ Fails (g.generateFrom start maxDepth) s e s') := by
  rw [generate_eq, fails_map]
  unfold grow
  split_ifs with he
  · have hlack : ¬ (g.terminals ≠ [] ∧ g.hasProductions = true) := fun h => not_lacking_iff.2 h he
    rw [fails_throw]
    exact ⟨fun h => .inl ⟨hlack, h⟩, fun h => h.elim And.right fun h => absurd ⟨h.1, h.2.1⟩ hlack⟩
  · obtain ⟨ht, hp⟩ := not_lacking_iff.1 he
    rcases hs : g.start with _ | start
    · simp [ht, hp]
    · simp [ht, hp, generateFrom_eq, fails_map]

/-- From a nonterminal without a word generation fails at once, names that nonterminal and draws no
number, and in no other way does it fail. From a nonterminal with a word every call a run comes to
can choose, so a word is generated unless a choice is given up. Hence generation from the start
symbol finds it unproductive exactly if there is something to generate from but no word is derived.
-/
theorem generateFrom_never_stuck (hg : g.Reachable) (c : Char) (maxDepth : Nat) (s : Source) :
    (∀ e s', Fails (g.generateFrom c maxDepth) s e s' ↔
        (¬ ∃ word, g.Derives c word) ∧ e = .unproductive c ∧ s' = s)
      ∧ ((∃ word, g.Derives c word) →
        (∀ call, g.Reaches g.heights ⟨maxDepth, c, s⟩ call → g.CanChoose g.heights call)
          ∧ ((∃ word s', Yields (g.generateFrom c maxDepth) s word s')
            ∨ ∃ call, g.Reaches g.heights ⟨maxDepth, c, s⟩ call ∧ g.GivesUp g.heights call))
      ∧ ∀ x s', Fails (g.generate maxDepth) s (.unproductive x) s' ↔
        g.terminals ≠ [] ∧ g.hasProductions = true ∧ g.start = some x
          ∧ (∀ word, g.isDerived word ≠ .ok true) ∧ s' = s := by
  have hc := hg.consistent
  have hn := hc.nonterminals_nodup
  refine ⟨fun e s' => fails_generateFrom_iff hn,
    fun hword => ⟨fun call h => h.canChoose hn hword, ?_⟩, fun x s' => ?_⟩
  · obtain ⟨n, hheight⟩ := (exists_word_iff hn).1 hword
    rcases grows_or_givesUp hn maxDepth n hheight s with ⟨t, s', ht⟩ | hgive
    · exact .inl ⟨t.yield, s', (yields_generateFrom_iff hn).2 ⟨t, ht, rfl⟩⟩
    · exact .inr hgive
  · have hnone : g.terminals ≠ [] → g.hasProductions = true → g.start = some x →
        ((∀ word, g.isDerived word ≠ .ok true) ↔ ¬ ∃ word, g.Derives x word) := by
      intro ht hp hs
      simp [hc.isDerived_eq_true_iff, ht, hp, hs]
    rw [fails_generate_iff]
    simp only [fails_generateFrom_iff hn]
    refine ⟨fun h => ?_, fun ⟨ht, hp, hs, hd, he⟩ => ?_⟩
    · rcases h with ⟨-, he, -⟩ | ⟨ht, hp, ⟨-, he, -⟩ | ⟨start, hs, hword, he, hs'⟩⟩
      · cases he
      · cases he
      · cases he
        exact ⟨ht, hp, hs, (hnone ht hp hs).2 hword, hs'⟩
    · exact .inr ⟨ht, hp, .inr ⟨x, hs, (hnone ht hp hs).1 hd, rfl, he⟩⟩

/-- `U` only gives way to pairs of itself, and `S` derives words. -/
theorem generateFrom_never_stuck_sample : sample.Reachable
    ∧ Fails (sample.generateFrom 'U' 3) (.ofList [7]) (.unproductive 'U') (.ofList [7])
    ∧ (∃ word, sample.Derives 'S' word)
    ∧ ∀ call, sample.Reaches sample.heights ⟨1, 'S', .ofList [7]⟩ call →
      sample.CanChoose sample.heights call := by
  have hn := reachable_sample.consistent.nonterminals_nodup
  have hU : sample.heights.of? 'U' = none := by decide +kernel
  have hS : sample.heights.of? 'S' = some 2 := by decide +kernel
  have hnone : ¬ ∃ word, sample.Derives 'U' word := by
    rw [exists_word_iff hn, hU]
    simp
  have hsome : ∃ word, sample.Derives 'S' word := (exists_word_iff hn).2 ⟨2, hS⟩
  exact ⟨reachable_sample,
    ((generateFrom_never_stuck reachable_sample 'U' 3 (.ofList [7])).1 _ _).2 ⟨hnone, rfl, rfl⟩,
    hsome, ((generateFrom_never_stuck reachable_sample 'S' 1 (.ofList [7])).2.1 hsome).1⟩

end Grammar

end Chomsky
