import Chomsky.Proofs.Generated

/-!
# What is drawn for a word

Generation is written once more with a log of its choices, and without the log it is the same
computation (`erases_growRecorded`). The log accounts for a run (`accounts_of_growRecorded`): each
node of the tree is one choice, the letters chosen make up the word, every choice reads up to the
first word it accepts, also when there is one candidate only, and nothing else is read. So a run can
be repeated from any source that has the same words ahead (`Grows.repeated`).
-/

namespace Chomsky

namespace Source

/-- Whether a source has the same words ahead as another, so many of them, and no less patience. -/
def Repeats (u s : Source) (count : Nat) : Prop :=
  s.patience ≤ u.patience ∧ ∀ i < count, u.word i = s.word i

variable {s u : Source} {m n : Nat}

theorem take_eq (s : Source) (count : Nat) :
    s.take count = ((List.range count).map s.word, s.skip count) := by
  induction count generalizing s with
  | zero => rfl
  | succ count ih =>
    rw [take, next]
    change ((s.word 0 :: ((s.skip 1).take count).1, ((s.skip 1).take count).2) :
      List UInt32 × Source) = _
    rw [ih, List.range_succ_eq_map]
    simp [Nat.add_comm 1, Function.comp_def]

theorem take_append {v w : List UInt32} {s₁ s' : Source} (hv : s.take v.length = (v, s₁))
    (hw : s₁.take w.length = (w, s')) : s.take (v ++ w).length = (v ++ w, s') := by
  simp only [take_eq, Prod.mk.injEq] at hv hw ⊢
  obtain ⟨hv, rfl⟩ := hv
  obtain ⟨hw, rfl⟩ := hw
  refine ⟨?_, ?_⟩
  · have hshift : s.word ∘ (v.length + ·) = (s.skip v.length).word :=
      funext fun i => (word_skip s v.length i).symm
    rw [List.length_append, List.range_add, List.map_append, List.map_map, hv, hshift, hw]
  · rw [skip_skip, List.length_append]

theorem Repeats.left (h : u.Repeats s (m + n)) : u.Repeats s m :=
  ⟨h.1, fun i hi => h.2 i (by omega)⟩

theorem Repeats.right (h : u.Repeats s (m + n)) : (u.skip m).Repeats (s.skip m) n := by
  refine ⟨h.1, fun i hi => ?_⟩
  rw [word_skip, word_skip]
  exact h.2 (m + i) (by omega)

/-- A choice depends on no word behind those it reads. -/
theorem choose_repeated {count i : Nat} {s' : Source} (h : s.choose count = some (i, s')) :
    ∃ n, s' = s.skip n ∧ ∀ u : Source, u.Repeats s n → u.choose count = some (i, u.skip n) := by
  obtain ⟨k, hk, hrefused, haccept, hi, rfl⟩ := chooseWithin_eq_some_iff.1 h
  refine ⟨k + 1, rfl, fun u hu => chooseWithin_eq_some_iff.2 ⟨k, ?_, fun j hj => ?_, ?_, ?_, rfl⟩⟩
  · exact hk.trans_le (Nat.succ_le_succ hu.1)
  · rw [hu.2 j (by omega)]
    exact hrefused j hj
  · rwa [hu.2 k (by omega)]
  · rwa [hu.2 k (by omega)]

end Source

/-! ## Recording the choices -/

/-- A choice of a run: what there was to choose, the words read for it, and what was chosen. -/
structure Choice where
  candidates : List Alternative
  words : List UInt32
  chosen : Alternative

/-- A computation that also keeps a log of its choices, the last one at the end. -/
abbrev Recording := StateT (List Choice) Generation

/-- The source as a computation finds it. -/
def currentSource : Generation Source := ExceptT.lift get

def chooseRecorded (candidates : List Alternative) : Recording (Option Alternative) := do
  let before ← currentSource
  let found ← chooseAmong candidates
  let after ← currentSource
  let words := (before.take (after.taken - before.taken)).1
  modify (· ++ (found.map (Choice.mk candidates words)).toList)
  return found

namespace Grammar

/-- Grows a tree and records every choice. -/
def growRecorded (g : Grammar) (heights : Heights) : Nat → Nat → Char → Recording Tree
  | 0, _, _ => StateT.lift fun _ => none
  | levels + 1, free, c => do
    let some height := heights.of? c | throw (.unproductive c)
    let candidates := openAlternatives heights free height (g.alternatives c)
    let some alternative ← chooseRecorded candidates | throw (.unproductive c)
    match alternative with
    | .letter t => return .leaf c t
    | .pair b d =>
      let left ← growRecorded g heights levels (free - 1) b
      let right ← growRecorded g heights levels (free - 1) d
      return .node c left right

/-- Generates a word and records every choice. -/
def recordFrom (g : Grammar) (c : Char) (maxDepth : Nat) : Recording Word :=
  let heights := g.heights
  Tree.yield <$> g.growRecorded heights (maxDepth + heights.largest + 1) maxDepth c

end Grammar

namespace Generation

theorem run_map {α β : Type} (f : α → β) (x : Generation α) (s : Source) :
    (f <$> x).run s = (x.run s).map fun p => (p.1.map f, p.2) := by
  rw [map_eq_pure_bind, run_bind]
  rcases x.run s with _ | ⟨_ | _, _⟩ <;> rfl

end Generation

namespace Recording

open Generation

/-- Whether a recording is this computation when its log is dropped. -/
def Erases {α : Type} (x : Recording α) (y : Generation α) : Prop := ∀ log, x.run' log = y

variable {α β : Type} {x : Recording α} {y : Generation α}

theorem erases_pure (a : α) : Erases (pure a) (pure a) := by
  intro log
  simp

theorem erases_throw (e : GenerateError) : Erases (throw e : Recording α) (throw e) := by
  intro log
  rfl

theorem Erases.bind {f : α → Recording β} {k : α → Generation β} (hx : x.Erases y)
    (hf : ∀ a, (f a).Erases (k a)) : (x >>= f).Erases (y >>= k) := by
  intro log
  rw [StateT.run'_eq, StateT.run_bind, map_bind, ← hx log, StateT.run'_eq, bind_map_left]
  exact bind_congr fun p => hf p.1 p.2

theorem run_chooseRecorded (candidates : List Alternative) (log : List Choice) (s : Source) :
    ((chooseRecorded candidates).run log).run s = ((chooseAmong candidates).run s).map fun p =>
      (p.1.map fun found => (found, log ++ (found.map (Choice.mk candidates
        (s.take (p.2.taken - s.taken)).1)).toList), p.2) := by
  have hsource : ∀ s, currentSource.run s = some (.ok s, s) := fun _ => rfl
  simp only [chooseRecorded, StateT.run_bind, StateT.run_modify, StateT.run_pure]
  rcases h : (chooseAmong candidates).run s with _ | ⟨_ | found, s'⟩ <;>
    simp [run_bind, run_map, hsource, h] <;> rfl

theorem erases_chooseRecorded (candidates : List Alternative) :
    Erases (chooseRecorded candidates) (chooseAmong candidates) := by
  intro log
  funext s
  change (Prod.fst <$> (chooseRecorded candidates).run log).run s = (chooseAmong candidates).run s
  rw [run_map, run_chooseRecorded]
  rcases (chooseAmong candidates).run s with _ | ⟨_ | _, _⟩ <;> rfl

theorem erases_growRecorded (g : Grammar) (H : Heights) : ∀ levels free c,
    Erases (g.growRecorded H levels free c) (g.growWithin H levels free c)
  | 0, free, c => by
    intro log
    rfl
  | levels + 1, free, c => by
    rw [Grammar.growRecorded, Grammar.growWithin]
    rcases H.of? c with _ | height
    · exact erases_throw _
    · refine (erases_chooseRecorded _).bind fun found => ?_
      rcases found with _ | x | ⟨b, d⟩
      · exact erases_throw _
      · exact erases_pure _
      · refine (erases_growRecorded g H levels _ b).bind fun left => ?_
        exact (erases_growRecorded g H levels _ d).bind fun right => erases_pure _

theorem erases_recordFrom (g : Grammar) (c : Char) (maxDepth : Nat) :
    Erases (g.recordFrom c maxDepth) (g.generateFrom c maxDepth) := by
  rw [Grammar.generateFrom_eq]
  unfold Grammar.recordFrom Grammar.growFrom
  simp only [map_eq_pure_bind]
  exact (erases_growRecorded g _ _ _ c).bind fun t => erases_pure _

end Recording

/-! ## What the log accounts for -/

def Alternative.letter? : Alternative → Option Char
  | .letter t => some t
  | .pair _ _ => none

@[simp] theorem Alternative.letter?_letter (t : Char) : (letter t).letter? = some t := rfl

@[simp] theorem Alternative.letter?_pair (b c : Char) : (pair b c).letter? = none := rfl

namespace Choice

/-- The words that the choice does not accept. -/
def refused (x : Choice) : List UInt32 :=
  x.words.filter fun word => ¬ Source.Accepts x.candidates.length word

/-- Whether the last of the words read is the only one to be accepted, and decides the choice. -/
def Decided (x : Choice) : Prop :=
  ∃ last, x.words = x.refused ++ [last] ∧ Source.Accepts x.candidates.length last
    ∧ x.candidates[Source.index x.candidates.length last]? = some x.chosen

/-- Every choice reads one word and those it refuses. -/
theorem length_words : ∀ {choices : List Choice}, (∀ x ∈ choices, x.Decided) →
    (choices.flatMap words).length = choices.length + (choices.flatMap refused).length
  | [], _ => rfl
  | x :: choices, h => by
    obtain ⟨last, hwords, -⟩ := h x List.mem_cons_self
    have hrest := length_words fun y hy => h y (List.mem_cons_of_mem x hy)
    simp only [List.flatMap_cons, List.length_append, List.length_cons, hrest]
    rw [hwords, List.length_append, List.length_singleton]
    omega

end Choice

/-- How the choices of a run account for the tree and for the words taken from the source: the
leaves are the letters chosen, the other choices are one fewer, and every word was read for some
choice. -/
structure Accounts (s : Source) (t : Tree) (choices : List Choice) (s' : Source) : Prop where
  letters : choices.filterMap (·.chosen.letter?) = t.yield
  pairs : (choices.filter (·.chosen.letter?.isNone)).length + 1 = t.yield.length
  decided : ∀ x ∈ choices, x.Decided
  taken : s.take (choices.flatMap Choice.words).length = (choices.flatMap Choice.words, s')

section Accounts

open Generation

variable {s s₁ s₂ s' : Source} {t left right : Tree} {choices l r : List Choice} {x : Choice}

theorem yields_chooseRecorded {candidates : List Alternative} {log log' : List Choice}
    {a : Alternative}
    (h : Yields ((chooseRecorded candidates).run log) s (some a, log') s') :
    ∃ x : Choice, log' = log ++ [x] ∧ x.chosen = a ∧ x.Decided
      ∧ s.take x.words.length = (x.words, s') := by
  rw [Yields, Recording.run_chooseRecorded, Option.map_eq_some_iff] at h
  obtain ⟨⟨_ | found, s₁⟩, hrun, h⟩ := h
  · cases h
  · cases h
    obtain ⟨i, hi, ha⟩ := yields_chooseAmong.1 hrun
    obtain ⟨k, -, hrefused, haccept, rfl, rfl⟩ := Source.chooseWithin_eq_some_iff.1 hi
    have hwords : (s.take ((s.skip (k + 1)).taken - s.taken)).1 =
        (List.range k).map s.word ++ [s.word k] := by
      rw [Source.skip, Nat.add_sub_cancel_left, Source.take_eq, List.range_succ, List.map_append]
      rfl
    refine ⟨_, rfl, rfl, ⟨s.word k, ?_, haccept, ha⟩, ?_⟩
    · have hnone : ∀ word ∈ (List.range k).map s.word,
          decide (¬ Source.Accepts candidates.length word) = true := by
        intro word hword
        obtain ⟨j, hj, rfl⟩ := List.mem_map.1 hword
        exact decide_eq_true (hrefused j (List.mem_range.1 hj))
      rw [Choice.refused]
      simp only [hwords, List.filter_append, List.filter_eq_self.2 hnone]
      simp [haccept]
    · rw [hwords, Source.take_eq]
      simp [List.range_succ]

theorem Accounts.leaf {c y : Char} (hy : x.chosen = .letter y) (hx : x.Decided)
    (htaken : s.take x.words.length = (x.words, s')) : Accounts s (.leaf c y) [x] s' where
  letters := by simp [hy, Tree.yield]
  pairs := by simp [hy, Tree.yield]
  decided := by simpa using hx
  taken := by simpa using htaken

theorem Accounts.node {c b d : Char} (hpair : x.chosen = .pair b d) (hx : x.Decided)
    (htaken : s.take x.words.length = (x.words, s₁)) (hl : Accounts s₁ left l s₂)
    (hr : Accounts s₂ right r s') : Accounts s (.node c left right) (x :: (l ++ r)) s' where
  letters := by simp [hpair, Tree.yield, hl.letters, hr.letters]
  pairs := by
    have hleft := hl.pairs
    have hright := hr.pairs
    have hcount : ((x :: (l ++ r)).filter (·.chosen.letter?.isNone)).length =
        (l.filter (·.chosen.letter?.isNone)).length
          + (r.filter (·.chosen.letter?.isNone)).length + 1 := by simp [hpair]
    rw [hcount, Tree.yield, List.length_append]
    omega
  decided := by
    intro y hy
    rcases List.mem_cons.1 hy with rfl | hy
    · exact hx
    · exact (List.mem_append.1 hy).elim (hl.decided y) (hr.decided y)
  taken := by
    rw [List.flatMap_cons, List.flatMap_append]
    exact Source.take_append htaken (Source.take_append hl.taken hr.taken)

/-- There are twice as many choices as leaves, but one. -/
theorem Accounts.length (h : Accounts s t choices s') :
    choices.length + 1 = 2 * t.yield.length := by
  have hletters : choices.countP (·.chosen.letter?.isSome) = t.yield.length := by
    rw [← h.letters, List.length_filterMap_eq_countP]
  have hpairs := h.pairs
  rw [← List.countP_eq_length_filter] at hpairs
  have hall := choices.length_eq_countP_add_countP (·.chosen.letter?.isSome)
  simp only [Bool.not_eq_true, Option.isSome_eq_false_iff, Bool.decide_eq_true] at hall
  omega

theorem accounts_of_growRecorded {g : Grammar} {H : Heights} : ∀ {levels free : Nat} {c : Char}
    {s s' : Source} {t : Tree} {log log' : List Choice},
    Yields ((g.growRecorded H levels free c).run log) s (t, log') s' →
      ∃ choices, log' = log ++ choices ∧ Accounts s t choices s'
  | 0, _, _, _, _, _, _, _, h => by cases h
  | levels + 1, free, c, s, s', t, log, log', h => by
    rw [Grammar.growRecorded] at h
    rcases hc : H.of? c with _ | height <;> simp only [hc] at h
    · cases h
    · rw [StateT.run_bind, yields_bind] at h
      obtain ⟨⟨_ | a, log₁⟩, s₁, hchoice, h⟩ := h
      · cases h
      · obtain ⟨x, rfl, rfl, hx, htaken⟩ := yields_chooseRecorded hchoice
        rcases ha : x.chosen with y | ⟨b, d⟩ <;> simp only [ha] at h
        · cases h
          exact ⟨[x], rfl, .leaf ha hx htaken⟩
        · simp only [StateT.run_bind, yields_bind] at h
          obtain ⟨⟨left, log₂⟩, s₂, hl, ⟨right, log₃⟩, s₃, hr, h⟩ := h
          cases h
          obtain ⟨l, rfl, hleft⟩ := accounts_of_growRecorded hl
          obtain ⟨r, rfl, hright⟩ := accounts_of_growRecorded hr
          exact ⟨x :: (l ++ r), by simp, .node ha hx htaken hleft hright⟩

theorem accounts_of_recordFrom {g : Grammar} {c : Char} {maxDepth : Nat} {word : Word}
    (h : Yields ((g.recordFrom c maxDepth).run []) s (word, choices) s') :
    ∃ t : Tree, t.yield = word ∧ Accounts s t choices s' := by
  rw [Grammar.recordFrom, StateT.run_map, yields_map] at h
  obtain ⟨⟨t, log⟩, hgrown, h⟩ := h
  cases h
  obtain ⟨choices, rfl, hall⟩ := accounts_of_growRecorded hgrown
  exact ⟨t, rfl, hall⟩

end Accounts

/-! ## Repeating a run -/

namespace Grammar

open Generation

variable {g : Grammar} {H : Heights} {free maxDepth : Nat} {c : Char} {word : Word}
  {a : Alternative} {t : Tree} {s s' : Source}

theorem Picks.repeated (h : g.Picks H free c s a s') : ∃ n, s' = s.skip n
    ∧ ∀ u : Source, u.Repeats s n → g.Picks H free c u a (u.skip n) := by
  obtain ⟨height, hc, hy⟩ := h
  obtain ⟨i, hi, ha⟩ := yields_chooseAmong.1 hy
  obtain ⟨n, rfl, hrepeat⟩ := Source.choose_repeated hi
  exact ⟨n, rfl, fun u hu => ⟨height, hc, yields_chooseAmong.2 ⟨i, hrepeat u hu, ha⟩⟩⟩

theorem Grows.repeated (h : g.Grows H free c s t s') : ∃ n, s' = s.skip n
    ∧ ∀ u : Source, u.Repeats s n → g.Grows H free c u t (u.skip n) := by
  induction h with
  | leaf pick =>
    obtain ⟨n, rfl, hpick⟩ := pick.repeated
    exact ⟨n, rfl, fun u hu => .leaf (hpick u hu)⟩
  | node pick _ _ ihl ihr =>
    obtain ⟨k, rfl, hpick⟩ := pick.repeated
    obtain ⟨l, rfl, hleft⟩ := ihl
    obtain ⟨r, rfl, hright⟩ := ihr
    refine ⟨k + (l + r), by simp only [Source.skip_skip, Nat.add_assoc], fun u hu => ?_⟩
    have hgrows := Grows.node (hpick u hu.left) (hleft _ hu.right.left)
      (hright _ hu.right.right)
    rwa [Source.skip_skip, Source.skip_skip] at hgrows

theorem exists_recorded (h : Yields (g.generateFrom c maxDepth) s word s') :
    ∃ choices, Yields ((g.recordFrom c maxDepth).run []) s (word, choices) s' := by
  rw [← Recording.erases_recordFrom g c maxDepth [], StateT.run'_eq, yields_map] at h
  obtain ⟨⟨_, choices⟩, hrecorded, rfl⟩ := h
  exact ⟨choices, hrecorded⟩

theorem generateFrom_repeated (h : Yields (g.generateFrom c maxDepth) s word s') :
    ∃ n, s' = s.skip n
      ∧ ∀ u : Source, u.Repeats s n → Yields (g.generateFrom c maxDepth) u word (u.skip n) := by
  rw [generateFrom_eq] at h ⊢
  obtain ⟨t, ht, rfl⟩ := yields_map.1 h
  obtain ⟨hgrows, hheight⟩ := yields_growWithin_iff.1 ht
  obtain ⟨n, rfl, hrepeat⟩ := hgrows.repeated
  exact ⟨n, rfl, fun u hu =>
    yields_map.2 ⟨t, yields_growWithin_iff.2 ⟨hrepeat u hu, hheight⟩, rfl⟩⟩

/-- What a word costs. Generation can be recorded, which changes nothing else about it. Then every
letter of the word is one choice, in order, and the pairs are one choice fewer, so there are twice
as many choices as letters but one. The words taken from the source are those the choices read: one
that each accepts and those it refuses, also where there is a single candidate. And another source
that has these words ahead gives the same word and is left behind them. -/
theorem generateFrom_draws (h : Yields (g.generateFrom c maxDepth) s word s') :
    (g.recordFrom c maxDepth).run' [] = g.generateFrom c maxDepth
      ∧ ∃ choices drawn, Yields ((g.recordFrom c maxDepth).run []) s (word, choices) s'
        ∧ choices.length + 1 = 2 * word.length
        ∧ choices.filterMap (·.chosen.letter?) = word
        ∧ (choices.filter (·.chosen.letter?.isNone)).length + 1 = word.length
        ∧ (∀ x ∈ choices, x.Decided)
        ∧ drawn + 1 = 2 * word.length + (choices.flatMap Choice.refused).length
        ∧ (s.take drawn).1 = choices.flatMap Choice.words ∧ s' = s.skip drawn
        ∧ ∀ u : Source, s.patience ≤ u.patience → (∀ i < drawn, u.word i = s.word i) →
          Yields (g.generateFrom c maxDepth) u word (u.skip drawn) := by
  obtain ⟨choices, hrecorded⟩ := exists_recorded h
  obtain ⟨t, rfl, hall⟩ := accounts_of_recordFrom hrecorded
  have htaken := hall.taken
  rw [Source.take_eq, Prod.mk.injEq] at htaken
  have hcount := Choice.length_words hall.decided
  have hlength := hall.length
  obtain ⟨n, hn, hrepeat⟩ := generateFrom_repeated h
  have hdrawn : (choices.flatMap Choice.words).length = n :=
    Nat.add_left_cancel (congrArg Source.taken (htaken.2.trans hn))
  refine ⟨Recording.erases_recordFrom g c maxDepth [], choices, n, hrecorded, hlength, hall.letters,
    hall.pairs, hall.decided, by omega, ?_, hn, fun u hpatience hu => hrepeat u ⟨hpatience, hu⟩⟩
  rw [Source.take_eq, ← hdrawn, htaken.1]

/-- `A` has one alternative, and still the first two words are refused. -/
theorem generateFrom_draws_sample :
    Yields (sample.generateFrom 'A' 3) (.ofList [0xFFFFFFFF, 0x80000000, 5]) ['a']
      ((Source.ofList [0xFFFFFFFF, 0x80000000, 5]).skip 3)
    ∧ ∀ u : Source, 1 <<< 48 ≤ u.patience → u.word 0 = 0xFFFFFFFF → u.word 1 = 0x80000000 →
      u.word 2 = 5 → Yields (sample.generateFrom 'A' 3) u ['a'] (u.skip 3) := by
  have hskip : ∀ word s', Yields (sample.generateFrom 'A' 3) (.ofList [0xFFFFFFFF, 0x80000000, 5])
      word s' → ∃ n, s' = (Source.ofList [0xFFFFFFFF, 0x80000000, 5]).skip n := by
    intro word s' h
    obtain ⟨n, hn, -⟩ := generateFrom_repeated h
    exact ⟨n, hn⟩
  have hy : Yields (sample.generateFrom 'A' 3) (.ofList [0xFFFFFFFF, 0x80000000, 5]) ['a']
      ((Source.ofList [0xFFFFFFFF, 0x80000000, 5]).skip 3) :=
    yields_of_taken hskip (by decide +kernel)
  obtain ⟨-, choices, drawn, -, -, -, -, -, -, -, hdrawn, hrepeat⟩ := generateFrom_draws hy
  obtain rfl : 3 = drawn := Nat.add_left_cancel (congrArg Source.taken hdrawn)
  refine ⟨hy, fun u hpatience h0 h1 h2 => hrepeat u hpatience fun i hi => ?_⟩
  obtain rfl | rfl | rfl : i = 0 ∨ i = 1 ∨ i = 2 := by omega
  · exact h0
  · exact h1
  · exact h2

end Grammar

end Chomsky
