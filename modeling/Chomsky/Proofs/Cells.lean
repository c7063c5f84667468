import Chomsky.Proofs.Derivation
import Chomsky.Proofs.Producers
import Chomsky.Proofs.Triangle
import Chomsky.Table.Filling

/-!
# What the cells hold

A cell is final if it holds exactly the nonterminals that derive its stretch of the word. A cell
filled from final cells is final (`Exact.atCell`): a derivation of more than one letter splits the
stretch in two, and every way to split it is one of the splits that are tried. So cells filled in
any order in which each comes behind its sources are all final (`Inv.foldl`), and the order in which
a table is filled is such an order (`grounded_coordinates`).
-/

namespace Chomsky

/-- The letters that belong to a cell. -/
def stretch (word : Word) (span offset : Nat) : Word := (word.drop offset).take (span + 1)

/-- The cells that a cell is filled from: both sides of each split. -/
def sources (place : Nat × Nat) : List (Nat × Nat) :=
  (List.range place.1).flatMap fun split =>
    [(split, place.2), (place.1 - split - 1, place.2 + split + 1)]

/-- Whether an order names cells only, each of them behind its sources. -/
def Grounded (n : Nat) (order : List (Nat × Nat)) : Prop :=
  ∀ done place rest, order = done ++ place :: rest →
    place.1 + place.2 < n ∧ ∀ p ∈ sources place, p ∈ done

/-- What each cell adds to the cells done before it, a grounded order keeps up to its end. -/
theorem Grounded.foldl {σ : Type} {n : Nat} {step : σ → Nat × Nat → σ}
    {P : σ → List (Nat × Nat) → Prop} {s : σ} {done rest : List (Nat × Nat)}
    (ho : Grounded n (done ++ rest))
    (hstep : ∀ {s done place}, place.1 + place.2 < n → (∀ p ∈ sources place, p ∈ done) →
      P s done → P (step s place) (done ++ [place]))
    (h : P s done) : P (rest.foldl step s) (done ++ rest) := by
  induction rest generalizing s done with
  | nil => simpa using h
  | cons place rest ih =>
    obtain ⟨hw, hs⟩ := ho done place rest rfl
    have := ih (by simpa using ho) (hstep hw hs h)
    simpa using this

/-- Whether a set holds exactly the nonterminals that derive the stretch of a cell. -/
def Grammar.Final (g : Grammar) (word : Word) (place : Nat × Nat) (s : Positions) : Prop :=
  s.Holds g fun c => g.Derives c (stretch word place.1 place.2)

/-! ## Splitting a stretch -/

section Stretch

variable {word : Word} {span offset : Nat}

theorem length_stretch (h : span + offset < word.length) :
    (stretch word span offset).length = span + 1 := by
  simp only [stretch, List.length_take, List.length_drop]
  omega

theorem stretch_zero {t : Char} (h : word[offset]? = some t) : stretch word 0 offset = [t] := by
  obtain ⟨hi, rfl⟩ := List.getElem?_eq_some_iff.1 h
  rw [stretch, List.drop_eq_getElem_cons hi]
  rfl

theorem stretch_split {split : Nat} (h : split < span) :
    stretch word span offset =
      stretch word split offset ++ stretch word (span - split - 1) (offset + split + 1) := by
  have hl : split + 1 + (span - split - 1 + 1) = span + 1 := by omega
  rw [stretch, ← hl, List.take_add, List.drop_drop]
  rfl

theorem split_of_append {u v : Word} (hu : u ≠ []) (hv : v ≠ [])
    (h : stretch word span offset = u ++ v) (hw : span + offset < word.length) :
    ∃ split < span, u = stretch word split offset
      ∧ v = stretch word (span - split - 1) (offset + split + 1) := by
  have hl := congrArg List.length h
  rw [length_stretch hw, List.length_append] at hl
  have hu' := List.length_pos_iff.2 hu
  have hv' := List.length_pos_iff.2 hv
  have hs : u.length - 1 < span := by omega
  refine ⟨u.length - 1, hs, ?_⟩
  rw [stretch_split hs] at h
  refine List.append_inj h ?_ |>.imp Eq.symm Eq.symm
  rw [length_stretch (by omega)]
  omega

variable {g : Grammar} {c : Char}

theorem derives_stretch_zero {t : Char} (h : word[offset]? = some t) :
    g.Derives c (stretch word 0 offset) ↔ .letter t ∈ g.alternatives c := by
  rw [stretch_zero h, Grammar.derives_iff]
  refine ⟨fun h => ?_, fun ha => ?_⟩
  · rcases h with ⟨t', ht, ha⟩ | ⟨b, d, u, v, -, he, hu, hv⟩
    · simp only [List.cons.injEq, and_true] at ht
      exact ht ▸ ha
    · have hu := List.length_pos_iff.2 hu.ne_nil
      have hv := List.length_pos_iff.2 hv.ne_nil
      have := congrArg List.length he
      simp only [List.length_singleton, List.length_append] at this
      omega
  · exact .inl ⟨t, rfl, ha⟩

theorem derives_stretch (hs : span ≠ 0) (h : span + offset < word.length) :
    g.Derives c (stretch word span offset) ↔ ∃ split < span, ∃ b d, .pair b d ∈ g.alternatives c
      ∧ g.Derives b (stretch word split offset)
      ∧ g.Derives d (stretch word (span - split - 1) (offset + split + 1)) := by
  rw [Grammar.derives_iff]
  refine ⟨fun hd => ?_, fun h => ?_⟩
  · rcases hd with ⟨t, ht, -⟩ | ⟨b, d, u, v, ha, he, hu, hv⟩
    · have := congrArg List.length ht
      rw [length_stretch h, List.length_singleton] at this
      omega
    · obtain ⟨split, hsplit, rfl, rfl⟩ := split_of_append hu.ne_nil hv.ne_nil he h
      exact ⟨split, hsplit, b, d, ha, hu, hv⟩
  · obtain ⟨split, hsplit, b, d, ha, hu, hv⟩ := h
    exact .inr ⟨b, d, _, _, ha, stretch_split hsplit, hu, hv⟩

end Stretch

/-! ## Filling one cell -/

theorem mem_sources {span offset : Nat} {p : Nat × Nat} :
    p ∈ sources (span, offset) ↔ ∃ split < span,
      p = (split, offset) ∨ p = (span - split - 1, offset + split + 1) := by
  simp [sources]

theorem span_lt_of_mem_sources {place p : Nat × Nat} (h : p ∈ sources place) : p.1 < place.1 := by
  obtain ⟨split, hs, rfl | rfl⟩ := mem_sources.1 h
  · exact hs
  · show place.1 - split - 1 < place.1
    omega

theorem lt_of_mem_sources {place p : Nat × Nat} {n : Nat} (h : p ∈ sources place)
    (hw : place.1 + place.2 < n) : p.1 < place.1 ∧ p.1 + p.2 < n := by
  refine ⟨span_lt_of_mem_sources h, ?_⟩
  obtain ⟨split, hs, rfl | rfl⟩ := mem_sources.1 h
  · show split + place.2 < n
    omega
  · show place.1 - split - 1 + (place.2 + split + 1) < n
    omega

namespace Producers

variable {g : Grammar} {p : Producers} {word : Word} {t : Table} {span offset : Nat}

theorem Exact.atLetter (hg : g.Consistent) (h : p.Exact g g.numberedRules)
    (ho : offset < word.length) : g.Final word (0, offset) (p.atLetter word offset) := by
  have hw : word[offset]? = some word[offset] := List.getElem?_eq_getElem ho
  rw [Producers.atLetter, hw]
  exact (h.letter hg.nonterminals_nodup word[offset]).congr fun c => (derives_stretch_zero hw).symm

theorem Exact.foldl_splits (hg : g.Consistent) (h : p.Exact g g.numberedRules)
    (hs : ∀ q ∈ sources (span, offset), g.Final word q (t.get q.1 q.2)) {tried : Nat}
    (ht : tried ≤ span) :
    ((List.range tried).foldl (fun found split =>
        p.combine (t.get split offset) (t.get (span - split - 1) (offset + split + 1)) found)
      (.empty p.width)).Holds g fun c => ∃ split < tried, ∃ b d, .pair b d ∈ g.alternatives c
        ∧ g.Derives b (stretch word split offset)
        ∧ g.Derives d (stretch word (span - split - 1) (offset + split + 1)) := by
  induction tried with
  | zero =>
    rw [h.width]
    exact (Positions.holds_empty g).congr fun c => by simp
  | succ tried ih =>
    have hl := hs _ (mem_sources.2 ⟨tried, by omega, .inl rfl⟩)
    have hr := hs _ (mem_sources.2 ⟨tried, by omega, .inr rfl⟩)
    rw [List.range_succ, List.foldl_append]
    refine (h.combine hg hl hr (ih (by omega))).congr fun c => ?_
    refine ⟨fun h => ?_, fun h => ?_⟩
    · rcases h with ⟨split, hlt, hd⟩ | hd
      · exact ⟨split, by omega, hd⟩
      · exact ⟨tried, by omega, hd⟩
    · obtain ⟨split, hlt, hd⟩ := h
      rcases Nat.lt_succ_iff_lt_or_eq.1 hlt with hlt | rfl
      · exact .inl ⟨split, hlt, hd⟩
      · exact .inr hd

theorem Exact.atCell (hg : g.Consistent) (h : p.Exact g g.numberedRules)
    (hw : span + offset < word.length)
    (hs : ∀ q ∈ sources (span, offset), g.Final word q (t.get q.1 q.2)) :
    g.Final word (span, offset) (p.atCell word t span offset) := by
  unfold Producers.atCell
  split_ifs with h0
  · subst h0
    exact h.atLetter hg (by omega)
  · exact (h.foldl_splits hg hs le_rfl).congr fun c => (derives_stretch h0 hw).symm

end Producers

/-! ## Filling all cells -/

/-- What holds of a table while it is filled, with the cells filled so far. -/
structure Filling.Inv (g : Grammar) (word : Word) (f : Filling) (done : List (Nat × Nat)) :
    Prop where
  wordLength : f.table.wordLength = word.length
  nonterminals : f.table.nonterminals = g.nonterminals
  full : f.table.Full
  final : ∀ p ∈ done, g.Final word p (f.table.get p.1 p.2)

namespace Filling

variable {g : Grammar} {word : Word} {f : Filling} {done rest : List (Nat × Nat)}

theorem inv_start (g : Grammar) (word : Word) (log : Array Event) :
    Inv g word ⟨.blank word.length g.nonterminals, log⟩ [] where
  wordLength := rfl
  nonterminals := rfl
  full := Table.full_blank _ _
  final := fun _ h => by cases h

theorem Inv.step (hg : g.Consistent) (h : Inv g word f done) {place : Nat × Nat}
    (hw : place.1 + place.2 < word.length) (hs : ∀ p ∈ sources place, p ∈ done) :
    Inv g word (f.step g.producers word place) (done ++ [place]) := by
  have hcell := hg.producers_exact.atCell hg hw fun q hq => h.final q (hs q hq)
  refine ⟨?_, ?_, h.full.put _ _ _, fun p hp => ?_⟩
  · exact (Table.wordLength_put ..).trans h.wordLength
  · exact (Table.nonterminals_put ..).trans h.nonterminals
  · have hput := Table.get_put h.full (h.wordLength ▸ hw)
      (g.producers.atCell word f.table place.1 place.2) p.1 p.2
    simp only [Filling.step] at hput ⊢
    rw [hput]
    split_ifs with he
    · rw [show p = place from Prod.ext he.1 he.2]
      exact hcell
    · rcases List.mem_append.1 hp with hp | hp
      · exact h.final p hp
      · rw [List.mem_singleton.1 hp] at he
        exact absurd ⟨rfl, rfl⟩ he

/-- In whatever order the cells are filled: if each comes behind its sources, all become final. -/
theorem Inv.foldl (hg : g.Consistent) (h : Inv g word f done)
    (ho : Grounded word.length (done ++ rest)) :
    Inv g word (rest.foldl (Filling.step g.producers word) f) (done ++ rest) :=
  ho.foldl (fun hw hs h => h.step hg hw hs) h

end Filling

/-! ## The filling order -/

theorem coordinates_pairwise (n : Nat) : (coordinates n).Pairwise fun p q => p.1 ≤ q.1 := by
  refine List.pairwise_flatMap.2 ⟨fun span _ => ?_, ?_⟩
  · exact List.pairwise_map.2 (List.pairwise_of_forall fun _ _ => le_rfl)
  · refine List.pairwise_lt_range.imp fun h => ?_
    intro p hp q hq
    obtain ⟨_, -, rfl⟩ := List.mem_map.1 hp
    obtain ⟨_, -, rfl⟩ := List.mem_map.1 hq
    exact h.le

/-- An order is grounded if it has the cells, all of them, and no cell is a source of an earlier
one. -/
theorem grounded_of_pairwise {n : Nat} {order : List (Nat × Nat)}
    (hm : ∀ place, place ∈ order ↔ place.1 + place.2 < n)
    (hp : order.Pairwise fun p q => q ∉ sources p) : Grounded n order := by
  rintro done place rest rfl
  have hw : place.1 + place.2 < n := (hm place).1 (by simp)
  refine ⟨hw, fun p hs => ?_⟩
  obtain ⟨hlt, hin⟩ := lt_of_mem_sources hs hw
  rcases List.mem_append.1 ((hm p).2 hin) with hdone | hrest
  · exact hdone
  · rcases List.mem_cons.1 hrest with rfl | hrest
    · exact absurd hlt (Nat.lt_irrefl _)
    · have hlater := (List.pairwise_append.1 hp).2.1
      exact absurd hs ((List.pairwise_cons.1 hlater).1 p hrest)

theorem grounded_coordinates (n : Nat) : Grounded n (coordinates n) :=
  grounded_of_pairwise (fun _ => mem_coordinates) ((coordinates_pairwise n).imp fun hle hs => by
    have := span_lt_of_mem_sources hs
    omega)

namespace Grammar

variable {g : Grammar} {word : Word}

theorem Consistent.filling_inv (hg : g.Consistent) (word : Word) :
    (g.filling word).Inv g word (coordinates word.length) :=
  (Filling.inv_start g word #[]).foldl hg (grounded_coordinates _)

theorem Consistent.wordLength_table (hg : g.Consistent) (word : Word) :
    (g.table word).wordLength = word.length :=
  (hg.filling_inv word).wordLength

theorem Consistent.nonterminals_table (hg : g.Consistent) (word : Word) :
    (g.table word).nonterminals = g.nonterminals :=
  (hg.filling_inv word).nonterminals

theorem Consistent.table_final (hg : g.Consistent) {span offset : Nat}
    (h : span + offset < word.length) :
    g.Final word (span, offset) ((g.table word).get span offset) :=
  (hg.filling_inv word).final _ (mem_coordinates.2 h)

end Grammar

end Chomsky
