import Chomsky.Producers
import Chomsky.Proofs.Reachable

/-!
# The producers of a grammar

The producers are entered one production at a time. A collection of sets by key is exact for what
has been entered (`Keyed.Exact`) if each key in use has the set of all positions entered for it; one
more entry keeps that. So the producers of a consistent grammar are exact for all its productions
(`Consistent.producers_exact`): a look-up finds all that can be rewritten to what is looked up and
nothing else (`lookUp_exact`), and joining the producers of every pair from two sets of nonterminals
gives exactly those that can be rewritten to such a pair (`Exact.combine`). Going through the
entries instead of the pairs comes to the same (`Exact.combine_eq_sift`).
-/

namespace Chomsky

section Keyed

variable {κ : Type} {width : Nat} {store : List (κ × Positions)} {R R' : κ → Nat → Prop}

theorem lookup_eq_some_iff_mem {α : Type} [BEq κ] [LawfulBEq κ] :
    ∀ {store : List (κ × α)}, (store.map Prod.fst).Nodup → ∀ {k : κ} {s : α},
      store.lookup k = some s ↔ (k, s) ∈ store
  | [], _, k, s => by simp
  | (d, t) :: rest, h, k, s => by
    rw [List.map_cons, List.nodup_cons] at h
    have ih := lookup_eq_some_iff_mem h.2 (k := k) (s := s)
    rw [List.lookup_cons, List.mem_cons, Prod.mk.injEq]
    by_cases hk : k = d
    · subst hk
      have hs : (k, s) ∉ rest := fun hm => h.1 (List.mem_map.2 ⟨_, hm, rfl⟩)
      simp [hs, eq_comm]
    · rw [beq_eq_false_iff_ne.2 hk]
      simp [hk, ih]

theorem keys_noteProducer [DecidableEq κ] (key : κ) (i : Nat) (store : List (κ × Positions)) :
    (noteProducer width key i store).map Prod.fst =
      if key ∈ store.map Prod.fst then store.map Prod.fst else store.map Prod.fst ++ [key] := by
  induction store with
  | nil => rfl
  | cons e rest ih =>
    simp only [noteProducer, List.map_cons, List.mem_cons]
    by_cases hk : e.1 = key
    · simp [hk]
    · simp only [hk, if_false, List.map_cons, ih, Ne.symm hk, false_or, List.cons_append]
      split_ifs <;> rfl

/-- Whether a collection has, for each key, the set of all positions related to it, and no set where
there are none. -/
structure Keyed.Exact (width : Nat) (store : List (κ × Positions)) (R : κ → Nat → Prop) : Prop where
  nodup : (store.map Prod.fst).Nodup
  sets : ∀ k s, (k, s) ∈ store →
    s.width = width ∧ (∃ i, R k i) ∧ ∀ i, s.contains i = true ↔ R k i
  complete : ∀ k i, R k i → ∃ s, (k, s) ∈ store

namespace Keyed

theorem exact_nil (h : ∀ k i, ¬ R k i) : Exact width [] R where
  nodup := List.nodup_nil
  sets := fun _ _ h => by simp at h
  complete := fun k i hR => absurd hR (h k i)

theorem Exact.congr (h : Exact width store R) (hR : ∀ k i, R k i ↔ R' k i) :
    Exact width store R' := by
  have : R = R' := funext fun k => funext fun i => propext (hR k i)
  exact this ▸ h

theorem Exact.lookup_eq_none_iff [BEq κ] [LawfulBEq κ] (h : Exact width store R) {k : κ} :
    store.lookup k = none ↔ ∀ i, ¬ R k i := by
  cases hl : store.lookup k with
  | none =>
    refine iff_of_true rfl fun i hR => ?_
    obtain ⟨s, hs⟩ := h.complete k i hR
    rw [(lookup_eq_some_iff_mem h.nodup).2 hs] at hl
    cases hl
  | some s =>
    obtain ⟨-, ⟨i, hi⟩, -⟩ := h.sets k s ((lookup_eq_some_iff_mem h.nodup).1 hl)
    exact iff_of_false (by simp) fun hn => hn i hi

/-- The set that takes in a position, whether it is begun with it or not. -/
theorem Exact.insert_getD [DecidableEq κ] (h : Exact width store R) (key : κ) {i : Nat}
    (hi : i < width) :
    let s := ((store.lookup key).getD (.empty width)).insert i
    s.width = width ∧ ∀ j, s.contains j = true ↔ R key j ∨ j = i := by
  have hs : ∃ s, (store.lookup key).getD (.empty width) = s ∧ s.width = width
      ∧ ∀ j, s.contains j = true ↔ R key j := by
    refine ⟨_, rfl, ?_⟩
    cases hl : store.lookup key with
    | none =>
      have hn := h.lookup_eq_none_iff.1 hl
      exact ⟨by simp, fun j => by simp [hn j]⟩
    | some s =>
      obtain ⟨hw, -, hc⟩ := h.sets key s ((lookup_eq_some_iff_mem h.nodup).1 hl)
      exact ⟨hw, hc⟩
  obtain ⟨s, he, hw, hc⟩ := hs
  rw [he]
  refine ⟨by simp [hw], fun j => ?_⟩
  simp only [Positions.contains_insert, hw, Bool.or_eq_true, Bool.and_eq_true, decide_eq_true_eq,
    hc]
  refine ⟨fun h => ?_, fun h => ?_⟩
  · rcases h with ⟨rfl, -⟩ | hR
    · exact .inr rfl
    · exact .inl hR
  · rcases h with hR | rfl
    · exact .inr hR
    · exact .inl ⟨rfl, hi⟩

theorem Exact.note [DecidableEq κ] (h : Exact width store R) (key : κ) {i : Nat} (hi : i < width) :
    Exact width (noteProducer width key i store) fun k j => R k j ∨ k = key ∧ j = i := by
  have hn : ((noteProducer width key i store).map Prod.fst).Nodup := by
    rw [keys_noteProducer]
    split_ifs with hk
    · exact h.nodup
    · exact h.nodup.append (List.nodup_singleton key) (List.disjoint_singleton.2 hk)
  have hm : ∀ k s, (k, s) ∈ noteProducer width key i store ↔
      (noteProducer width key i store).lookup k = some s := fun k s =>
    (lookup_eq_some_iff_mem hn).symm
  obtain ⟨hw, hc⟩ := h.insert_getD key hi
  refine ⟨hn, fun k s hs => ?_, fun k j hR => ?_⟩
  · rw [hm, lookup_noteProducer] at hs
    split_ifs at hs with he
    · subst he
      cases hs
      exact ⟨hw, ⟨i, .inr ⟨rfl, rfl⟩⟩, fun j => by simpa using hc j⟩
    · obtain ⟨hw, ⟨j, hj⟩, hc⟩ := h.sets k s ((lookup_eq_some_iff_mem h.nodup).1 hs)
      exact ⟨hw, ⟨j, .inl hj⟩, fun j => by simp [hc, he]⟩
  · simp only [hm, lookup_noteProducer]
    split_ifs with he
    · exact ⟨_, rfl⟩
    · obtain ⟨s, hs⟩ := h.complete k j (hR.resolve_right fun hk => he hk.1)
      exact ⟨s, (lookup_eq_some_iff_mem h.nodup).2 hs⟩

end Keyed

end Keyed

theorem Positions.ext_contains {s t : Positions} (hw : s.width = t.width)
    (h : ∀ i, s.contains i = t.contains i) : s = t := by
  rcases s with ⟨l⟩
  rcases t with ⟨m⟩
  rw [Positions.mk.injEq]
  refine List.ext_getElem hw fun i hl hm => ?_
  simpa [Positions.contains, hl, hm] using h i

/-- Whether a set holds exactly the positions of the nonterminals with a property. -/
structure Positions.Holds (g : Grammar) (s : Positions) (P : Char → Prop) : Prop where
  width : s.width = g.nonterminals.length
  contains_iff : ∀ i, s.contains i = true ↔ ∃ c, g.nonterminals[i]? = some c ∧ P c

theorem Positions.Holds.congr {g : Grammar} {s : Positions} {P Q : Char → Prop} (h : s.Holds g P)
    (hPQ : ∀ c, P c ↔ Q c) : s.Holds g Q := by
  have : P = Q := funext fun c => propext (hPQ c)
  exact this ▸ h

theorem Positions.Holds.unique {g : Grammar} {s t : Positions} {P : Char → Prop} (hs : s.Holds g P)
    (ht : t.Holds g P) : s = t := by
  refine ext_contains (hs.width.trans ht.width.symm) fun i => ?_
  rw [Bool.eq_iff_iff, hs.contains_iff, ht.contains_iff]

/-- Whether a look-up finds the positions of the nonterminals with a property, and nothing if there
are none. -/
structure Grammar.Finds (g : Grammar) (found : Option Positions) (P : Char → Prop) : Prop where
  eq_none_iff : found = none ↔ ∀ c ∈ g.nonterminals, ¬ P c
  holds : ∀ s, found = some s → s.Holds g P

theorem Positions.holds_empty (g : Grammar) :
    (Positions.empty g.nonterminals.length).Holds g fun _ => False where
  width := Positions.width_empty _
  contains_iff := by simp

namespace Producers

variable {g : Grammar} {p : Producers} {rules rest : List (Nat × Alternative)}

/-- Whether the producers are those of all productions entered. -/
structure Exact (g : Grammar) (p : Producers) (rules : List (Nat × Alternative)) : Prop where
  width : p.width = g.nonterminals.length
  letters : Keyed.Exact p.width p.byLetter fun t i => (i, .letter t) ∈ rules
  pairs : Keyed.Exact p.width p.byPair fun k i => ∃ b d,
    g.nonterminals[k.1]? = some b ∧ g.nonterminals[k.2]? = some d ∧ (i, .pair b d) ∈ rules

/-! ## Entering the productions -/

theorem exact_nil (g : Grammar) : Exact g ⟨g.nonterminals.length, [], []⟩ [] where
  width := rfl
  letters := Keyed.exact_nil (by simp)
  pairs := Keyed.exact_nil (by simp)

theorem Exact.note (hg : g.nonterminals.Nodup) (h : Exact g p rules) {i : Nat} {a : Alternative}
    (hi : i < g.nonterminals.length) (ha : g.Declares a) :
    Exact g (p.note g (i, a)) (rules ++ [(i, a)]) := by
  have hw : i < p.width := h.width ▸ hi
  cases a with
  | letter t =>
    refine ⟨h.width, ?_, ?_⟩
    · exact (h.letters.note t hw).congr fun t' j => by simp [and_comm]
    · exact h.pairs.congr fun k j => by simp
  | pair b d =>
    obtain ⟨l, hl⟩ := List.mem_iff_getElem?.1 ha.1
    obtain ⟨r, hr⟩ := List.mem_iff_getElem?.1 ha.2
    have hb : ∀ {k}, g.position? b = some k ↔ g.nonterminals[k]? = some b :=
      Grammar.position?_eq_some_iff hg
    have hd : ∀ {k}, g.position? d = some k ↔ g.nonterminals[k]? = some d :=
      Grammar.position?_eq_some_iff hg
    have hn : p.note g (i, .pair b d) =
        { p with byPair := noteProducer p.width (l, r) i p.byPair } := by
      simp only [Producers.note, hb.2 hl, hd.2 hr]
    rw [hn]
    refine ⟨h.width, ?_, ?_⟩
    · exact h.letters.congr fun t j => by simp
    · refine (h.pairs.note (l, r) hw).congr fun k j => ?_
      simp only [List.mem_append, List.mem_singleton, Prod.mk.injEq, Alternative.pair.injEq]
      refine ⟨fun h => ?_, fun h => ?_⟩
      · rcases h with ⟨b', d', hb', hd', hm⟩ | ⟨rfl, rfl⟩
        · exact ⟨b', d', hb', hd', .inl hm⟩
        · exact ⟨b, d, hl, hr, .inr ⟨rfl, rfl, rfl⟩⟩
      · obtain ⟨b', d', hb', hd', hm | ⟨rfl, rfl, rfl⟩⟩ := h
        · exact .inl ⟨b', d', hb', hd', hm⟩
        · have h1 := (hb.2 hl).symm.trans (hb.2 hb')
          have h2 := (hd.2 hr).symm.trans (hd.2 hd')
          simp only [Option.some.injEq] at h1 h2
          exact .inr ⟨by rw [h1, h2], rfl⟩

theorem Exact.foldl (hg : g.nonterminals.Nodup) (h : Exact g p rules)
    (hr : ∀ r ∈ rest, r.1 < g.nonterminals.length ∧ g.Declares r.2) :
    Exact g (rest.foldl (Producers.note g) p) (rules ++ rest) := by
  induction rest generalizing p rules with
  | nil => simpa using h
  | cons r rest ih =>
    obtain ⟨hi, ha⟩ := hr r List.mem_cons_self
    have := ih (h.note hg hi ha) fun r' hr' => hr r' (List.mem_cons_of_mem _ hr')
    simpa using this

end Producers

namespace Grammar

variable {g : Grammar}

theorem mem_numberedRules_iff (hn : g.nonterminals.Nodup) {i : Nat} {a : Alternative} :
    (i, a) ∈ g.numberedRules ↔ ∃ c, g.nonterminals[i]? = some c ∧ a ∈ g.alternatives c := by
  simp only [numberedRules, List.mem_flatMap, List.mem_map, Prod.exists, Prod.mk.injEq,
    List.mk_mem_zipIdx_iff_getElem?, nonterminals, List.getElem?_map, Option.map_eq_some_iff]
  refine ⟨fun h => ?_, fun h => ?_⟩
  · obtain ⟨group, _, hg, b, hb, rfl, rfl⟩ := h
    refine ⟨_, ⟨group, hg, rfl⟩, ?_⟩
    rwa [alternatives_symbol hn (List.mem_of_getElem? hg)]
  · obtain ⟨_, ⟨group, hg, rfl⟩, ha⟩ := h
    rw [alternatives_symbol hn (List.mem_of_getElem? hg)] at ha
    exact ⟨group, i, hg, a, ha, rfl, rfl⟩

theorem Consistent.producers_exact (h : g.Consistent) :
    g.producers.Exact g g.numberedRules := by
  refine (Producers.exact_nil g).foldl h.nonterminals_nodup ?_
  rintro ⟨i, a⟩ hr
  obtain ⟨c, hc, ha⟩ := (mem_numberedRules_iff h.nonterminals_nodup).1 hr
  exact ⟨(List.getElem?_eq_some_iff.1 hc).1, h.declares c a ha⟩

end Grammar

/-! ## Looking up producers -/

section LookUp

variable {g : Grammar} {p : Producers} {found : Option Positions} {P Q : Char → Prop}

theorem Grammar.Finds.congr (h : g.Finds found P) (hPQ : ∀ c, P c ↔ Q c) : g.Finds found Q := by
  have : P = Q := funext fun c => propext (hPQ c)
  exact this ▸ h

theorem Grammar.Finds.getD (h : g.Finds found P) :
    (found.getD (.empty g.nonterminals.length)).Holds g P := by
  rcases found with _ | s
  · refine ⟨Positions.width_empty _, fun i => iff_of_false (by simp) fun ⟨c, hc, hP⟩ => ?_⟩
    exact h.eq_none_iff.1 rfl c (List.mem_of_getElem? hc) hP
  · exact h.holds s rfl

theorem Keyed.Exact.finds {κ : Type} [BEq κ] [LawfulBEq κ] {width : Nat}
    {store : List (κ × Positions)} {R : κ → Nat → Prop} (h : Keyed.Exact width store R)
    (hw : width = g.nonterminals.length) {k : κ}
    (hR : ∀ i, R k i ↔ ∃ c, g.nonterminals[i]? = some c ∧ P c) : g.Finds (store.lookup k) P where
  eq_none_iff := by
    simp only [h.lookup_eq_none_iff, hR]
    refine ⟨fun hnone c hc hP => ?_, fun hnone i ⟨c, hc, hP⟩ => ?_⟩
    · obtain ⟨i, hi⟩ := List.mem_iff_getElem?.1 hc
      exact hnone i ⟨c, hi, hP⟩
    · exact hnone c (List.mem_of_getElem? hc) hP
  holds s hs := by
    obtain ⟨hwidth, -, hcontains⟩ := h.sets k s ((lookup_eq_some_iff_mem h.nodup).1 hs)
    exact ⟨hwidth.trans hw, fun i => (hcontains i).trans (hR i)⟩

namespace Producers

theorem Exact.finds_letter (hg : g.nonterminals.Nodup) (h : p.Exact g g.numberedRules) (t : Char) :
    g.Finds (p.ofLetter? t) fun c => .letter t ∈ g.alternatives c :=
  h.letters.finds h.width fun _ => Grammar.mem_numberedRules_iff hg

theorem Exact.finds_pair (hg : g.nonterminals.Nodup) (h : p.Exact g g.numberedRules) (i j : Nat) :
    g.Finds (p.ofPair? i j) fun c => ∃ b d, g.nonterminals[i]? = some b
      ∧ g.nonterminals[j]? = some d ∧ .pair b d ∈ g.alternatives c := by
  refine h.pairs.finds h.width fun k => ?_
  simp only [Grammar.mem_numberedRules_iff hg]
  refine ⟨fun ⟨b, d, hb, hd, c, hc, ha⟩ => ?_, fun ⟨c, hc, b, d, hb, hd, ha⟩ => ?_⟩
  · exact ⟨c, hc, b, d, hb, hd, ha⟩
  · exact ⟨b, d, hb, hd, c, hc, ha⟩

theorem Exact.letter (hg : g.nonterminals.Nodup) (h : p.Exact g g.numberedRules) (t : Char) :
    ((p.ofLetter? t).getD (.empty p.width)).Holds g fun c => .letter t ∈ g.alternatives c := by
  rw [h.width]
  exact (h.finds_letter hg t).getD

end Producers

/-- A terminal, or a pair of positions of nonterminals, leads to the positions of exactly those
nonterminals that can be rewritten to it, in a set with one place for each nonterminal, and to
nothing if there are none. Positions behind the last nonterminal lead to nothing. -/
theorem Grammar.lookUp_exact (hg : g.Reachable) :
    g.producers.width = g.nonterminals.length
      ∧ (∀ t, g.Finds (g.producers.ofLetter? t) fun c => .letter t ∈ g.alternatives c)
      ∧ (∀ i j, g.nonterminals.length ≤ i ∨ g.nonterminals.length ≤ j →
        g.producers.ofPair? i j = none)
      ∧ ∀ i j b d, g.nonterminals[i]? = some b → g.nonterminals[j]? = some d →
        g.Finds (g.producers.ofPair? i j) fun c => .pair b d ∈ g.alternatives c := by
  have hc := hg.consistent
  have hn := hc.nonterminals_nodup
  have hexact := hc.producers_exact
  refine ⟨hexact.width, hexact.finds_letter hn, fun i j hij => ?_, fun i j b d hb hd => ?_⟩
  · refine (hexact.finds_pair hn i j).eq_none_iff.2 fun c _ ⟨b, d, hb, hd, _⟩ => ?_
    have hi := (List.getElem?_eq_some_iff.1 hb).1
    have hj := (List.getElem?_eq_some_iff.1 hd).1
    omega
  · refine (hexact.finds_pair hn i j).congr fun c => ?_
    simp only [hb, hd, Option.some.injEq, exists_and_left, exists_eq_left']

/-- The positions are those of `S`, `A`, `B` and `U`: `BB` is an alternative of `B` alone, and `UB`
of nothing. -/
theorem Grammar.lookUp_sample : sample.Reachable
    ∧ sample.producers.ofPair? 2 2 = some ⟨[false, false, true, false]⟩
    ∧ Positions.Holds sample ⟨[false, false, true, false]⟩
      (fun c => .pair 'B' 'B' ∈ sample.alternatives c)
    ∧ sample.producers.ofPair? 3 2 = none
    ∧ (∀ c ∈ sample.nonterminals, .pair 'U' 'B' ∉ sample.alternatives c)
    ∧ sample.producers.ofPair? 2 4 = none := by
  obtain ⟨-, -, hout, hpair⟩ := lookUp_exact reachable_sample
  have hB : sample.nonterminals[2]? = some 'B' := by decide +kernel
  have hU : sample.nonterminals[3]? = some 'U' := by decide +kernel
  have hBB : sample.producers.ofPair? 2 2 = some ⟨[false, false, true, false]⟩ := by
    decide +kernel
  have hUB : sample.producers.ofPair? 3 2 = none := by decide +kernel
  have hlength : sample.nonterminals.length ≤ 4 := by decide +kernel
  exact ⟨reachable_sample, hBB, (hpair 2 2 'B' 'B' hB hB).holds _ hBB, hUB,
    (hpair 3 2 'U' 'B' hU hB).eq_none_iff.1 hUB, hout 2 4 (.inr hlength)⟩

end LookUp

/-! ## Joining producers -/

theorem Positions.foldl_union {width : Nat} :
    ∀ (sets : List Positions) {into : Positions}, into.width = width →
      (∀ s ∈ sets, s.width = width) → (sets.foldl union into).width = width
        ∧ ∀ k, (sets.foldl union into).contains k = true ↔
          into.contains k = true ∨ ∃ s ∈ sets, s.contains k = true
  | [], _, hw, _ => ⟨hw, by simp⟩
  | s :: sets, into, hw, h => by
    rw [List.forall_mem_cons] at h
    have hunion : (into.union s).width = width := by simp [hw, h.1]
    obtain ⟨hwidth, hk⟩ := foldl_union sets hunion h.2
    refine ⟨hwidth, fun k => ?_⟩
    rw [List.foldl_cons, hk, contains_union (hw.trans h.1.symm), Bool.or_eq_true, or_assoc,
      List.exists_mem_cons_iff]

namespace Producers

variable {g : Grammar} {p : Producers} {rules : List (Nat × Alternative)}
  {left right into : Positions}

theorem combine_eq_foldl_union (p : Producers) (left right into : Positions) :
    p.combine left right into =
      ((left.toList.flatMap fun i => right.toList.map fun j => (i, j)).filterMap fun q =>
        p.ofPair? q.1 q.2).foldl .union into := by
  rw [List.foldl_filterMap, combine]
  congr
  funext found q
  rw [addPair]
  cases p.ofPair? q.1 q.2 <;> rfl

theorem Exact.ofPair?_eq_some_iff (h : p.Exact g rules) {i j : Nat} {s : Positions} :
    p.ofPair? i j = some s ↔ ((i, j), s) ∈ p.byPair :=
  lookup_eq_some_iff_mem h.pairs.nodup

theorem Exact.width_of_mem_filterMap (h : p.Exact g rules) {pairs : List (Nat × Nat)}
    {s : Positions} (hs : s ∈ pairs.filterMap fun q => p.ofPair? q.1 q.2) :
    s.width = p.width := by
  obtain ⟨q, -, hq⟩ := List.mem_filterMap.1 hs
  exact (h.pairs.sets q s (h.ofPair?_eq_some_iff.1 hq)).1

theorem Exact.combine_spec (h : p.Exact g rules) (left right : Positions)
    (hw : into.width = p.width) : (p.combine left right into).width = p.width
      ∧ ∀ k, (p.combine left right into).contains k = true ↔ into.contains k = true
        ∨ ∃ i j s, left.contains i = true ∧ right.contains j = true
          ∧ ((i, j), s) ∈ p.byPair ∧ s.contains k = true := by
  rw [combine_eq_foldl_union]
  obtain ⟨hwidth, hk⟩ := Positions.foldl_union _ hw fun s hs => h.width_of_mem_filterMap hs
  refine ⟨hwidth, fun k => (hk k).trans (or_congr_right ?_)⟩
  simp only [List.mem_filterMap, List.mem_flatMap, List.mem_map, Positions.mem_toList,
    h.ofPair?_eq_some_iff]
  constructor
  · rintro ⟨s, ⟨_, ⟨i, hi, j, hj, rfl⟩, hs⟩, hc⟩
    exact ⟨i, j, s, hi, hj, hs, hc⟩
  · rintro ⟨i, j, s, hi, hj, hs, hc⟩
    exact ⟨s, ⟨(i, j), ⟨i, hi, j, hj, rfl⟩, hs⟩, hc⟩

/-- Instead of looking up every pair, one can go through the entries and join those that have both
parts in the sets. -/
theorem Exact.combine_eq_sift (h : p.Exact g rules) (left right : Positions)
    (hw : into.width = p.width) : p.combine left right into =
      ((p.byPair.filter fun e => left.contains e.1.1 && right.contains e.1.2).map
        Prod.snd).foldl .union into := by
  obtain ⟨hwidth, hk⟩ := h.combine_spec left right hw
  obtain ⟨hwidth', hk'⟩ := Positions.foldl_union
    ((p.byPair.filter fun e => left.contains e.1.1 && right.contains e.1.2).map Prod.snd) hw
    fun s hs => by
      obtain ⟨e, he, rfl⟩ := List.mem_map.1 hs
      exact (h.pairs.sets e.1 e.2 (List.mem_filter.1 he).1).1
  refine Positions.ext_contains (hwidth.trans hwidth'.symm) fun k => ?_
  rw [Bool.eq_iff_iff, hk, hk']
  refine or_congr_right ⟨?_, ?_⟩
  · rintro ⟨i, j, s, hi, hj, hs, hc⟩
    exact ⟨s, List.mem_map.2 ⟨((i, j), s), by simp [hs, hi, hj], rfl⟩, hc⟩
  · rintro ⟨s, hs, hc⟩
    obtain ⟨⟨⟨i, j⟩, _⟩, he, rfl⟩ := List.mem_map.1 hs
    rw [List.mem_filter, Bool.and_eq_true] at he
    exact ⟨i, j, _, he.2.1, he.2.2, he.1, hc⟩

theorem Exact.combine (hg : g.Consistent) (h : p.Exact g g.numberedRules) {L R P : Char → Prop}
    (hl : left.Holds g L) (hr : right.Holds g R) (hi : into.Holds g P) :
    (p.combine left right into).Holds g fun c =>
      P c ∨ ∃ b d, .pair b d ∈ g.alternatives c ∧ L b ∧ R d := by
  have hn := hg.nonterminals_nodup
  obtain ⟨hw, hk⟩ := h.combine_spec left right (hi.width.trans h.width.symm)
  refine ⟨hw.trans h.width, fun k => (hk k).trans ?_⟩
  rw [hi.contains_iff]
  refine ⟨fun hor => ?_, fun hor => ?_⟩
  · rcases hor with ⟨c, hc, hP⟩ | ⟨i, j, s, h1, h2, hs, h3⟩
    · exact ⟨c, hc, .inl hP⟩
    · obtain ⟨b', hb', hL⟩ := (hl.contains_iff i).1 h1
      obtain ⟨d', hd', hR⟩ := (hr.contains_iff j).1 h2
      obtain ⟨b, d, hb, hd, hm⟩ := ((h.pairs.sets _ _ hs).2.2 k).1 h3
      obtain ⟨c, hc, ha⟩ := (Grammar.mem_numberedRules_iff hn).1 hm
      cases hb.symm.trans hb'
      cases hd.symm.trans hd'
      exact ⟨c, hc, .inr ⟨_, _, ha, hL, hR⟩⟩
  · obtain ⟨c, hc, hP | ⟨b, d, ha, hL, hR⟩⟩ := hor
    · exact .inl ⟨c, hc, hP⟩
    · obtain ⟨hb, hd⟩ := hg.declares c _ ha
      obtain ⟨i, hb⟩ := List.mem_iff_getElem?.1 hb
      obtain ⟨j, hd⟩ := List.mem_iff_getElem?.1 hd
      have hm : ∃ b d, g.nonterminals[i]? = some b ∧ g.nonterminals[j]? = some d
          ∧ (k, .pair b d) ∈ g.numberedRules :=
        ⟨b, d, hb, hd, (Grammar.mem_numberedRules_iff hn).2 ⟨c, hc, ha⟩⟩
      obtain ⟨s, hs⟩ := h.pairs.complete (i, j) k hm
      exact .inr ⟨i, j, s, (hl.contains_iff i).2 ⟨b, hb, hL⟩, (hr.contains_iff j).2 ⟨d, hd, hR⟩,
        hs, ((h.pairs.sets _ _ hs).2.2 k).2 hm⟩

end Producers

end Chomsky
