import Chomsky.Proofs.Membership
import Mathlib.Logic.Function.Basic

/-!
# The plain recurrence

What a cell holds is said by a recurrence on sets alone: a single letter has the nonterminals with a
production for it, and a longer stretch those with a production whose parts stand in the cells of
the two sides of a split. The recurrence has one solution, that of the derivations
(`Solves.exactAt`). It can be evaluated cell by cell in every order in which a cell comes behind the
cells it is made from, and within a cell the parts may be met in any order and more than once: what
is found is always the solution (`exactAt_evaluate`), and it is what the table of the word holds
(`derivationTable_unique`).
-/

namespace Chomsky

/-- The nonterminals found for each cell. -/
abbrev Cells := Nat × Nat → List Char

/-- A split, with a nonterminal from the cell of its left side and one from that of its right side.
-/
structure Junction where
  split : Nat
  left : Char
  right : Char

/-- All junctions of a cell. -/
def Cells.junctions (cells : Cells) (place : Nat × Nat) : List Junction :=
  (List.range place.1).flatMap fun split =>
    (cells (split, place.2)).flatMap fun b =>
      (cells (place.1 - split - 1, place.2 + split + 1)).map fun d => ⟨split, b, d⟩

/-- The table that holds these nonterminals. -/
def Table.ofCells (wordLength : Nat) (nonterminals : List Char) (cells : Cells) : Table where
  wordLength := wordLength
  nonterminals := nonterminals
  cells := ((coordinates wordLength).map fun place =>
    ⟨nonterminals.map fun c => decide (c ∈ cells place)⟩).toArray

/-! ## Column by column -/

/-- The cells of a triangle over `n` letters column by column, the last column first and each from
the shortest stretch to the longest. -/
def columns (n : Nat) : List (Nat × Nat) :=
  (List.range n).reverse.flatMap fun offset =>
    (List.range (n - offset)).map fun span => (span, offset)

theorem mem_columns {n : Nat} {place : Nat × Nat} : place ∈ columns n ↔ place.1 + place.2 < n := by
  obtain ⟨span, offset⟩ := place
  simp only [columns, List.mem_flatMap, List.mem_reverse, List.mem_range, List.mem_map,
    Prod.mk.injEq]
  refine ⟨fun h => ?_, fun h => ⟨offset, by omega, span, by omega, rfl, rfl⟩⟩
  obtain ⟨_, h1, _, h2, rfl, rfl⟩ := h
  omega

theorem grounded_columns (n : Nat) : Grounded n (columns n) := by
  refine grounded_of_pairwise (fun _ => mem_columns) (List.pairwise_flatMap.2 ⟨fun j _ => ?_, ?_⟩)
  · -- within a column the later stretches are longer
    refine List.pairwise_map.2 (List.pairwise_lt_range.imp fun hlt hs => ?_)
    have := span_lt_of_mem_sources hs
    omega
  · -- the sources of a cell are in its column or to the right of it
    refine (List.pairwise_reverse.2 List.pairwise_lt_range).imp fun hlt p hp q hq hs => ?_
    obtain ⟨_, -, rfl⟩ := List.mem_map.1 hp
    obtain ⟨_, -, rfl⟩ := List.mem_map.1 hq
    obtain ⟨split, -, he | he⟩ := mem_sources.1 hs <;> cases he <;> omega

namespace Grammar

/-- The nonterminals with an alternative, found by going through all productions. -/
def scan (g : Grammar) (a : Alternative) : List Char :=
  (g.rules.filter fun rule => rule.2 = a).map Prod.fst

/-- Evaluates the recurrence at one cell, with its junctions met as they are arranged. -/
def plainCell (g : Grammar) (word : Word) (arrange : Nat × Nat → List Junction → List Junction)
    (cells : Cells) (place : Nat × Nat) : List Char :=
  if place.1 = 0 then (word[place.2]?.map fun t => g.scan (.letter t)).getD []
  else (arrange place (cells.junctions place)).foldl
    (fun found j => found ∪ g.scan (.pair j.left j.right)) []

/-- Evaluates the recurrence at one cell after the other. -/
def evaluate (g : Grammar) (word : Word) (arrange : Nat × Nat → List Junction → List Junction)
    (order : List (Nat × Nat)) : Cells :=
  order.foldl (fun cells place =>
    Function.update cells place (g.plainCell word arrange cells place)) fun _ => []

/-- Whether the recurrence puts `c` into a cell, from what is in the cells of shorter stretches. -/
def Justified (g : Grammar) (word : Word) (holds : Nat × Nat → Char → Prop) (place : Nat × Nat)
    (c : Char) : Prop :=
  if place.1 = 0 then ∃ t, word[place.2]? = some t ∧ (c, .letter t) ∈ g.rules
  else ∃ split < place.1, ∃ b d, (c, .pair b d) ∈ g.rules ∧ holds (split, place.2) b
    ∧ holds (place.1 - split - 1, place.2 + split + 1) d

/-- Whether the recurrence holds at every cell. -/
def Solves (g : Grammar) (word : Word) (cells : Cells) : Prop :=
  ∀ place, place.1 + place.2 < word.length → ∀ c,
    c ∈ cells place ↔ g.Justified word (fun p x => x ∈ cells p) place c

/-- Whether a cell has exactly the nonterminals that derive its stretch. -/
def ExactAt (g : Grammar) (word : Word) (cells : Cells) (place : Nat × Nat) : Prop :=
  ∀ c, c ∈ cells place ↔ g.Derives c (stretch word place.1 place.2)

variable {g : Grammar} {word : Word} {cells : Cells} {place : Nat × Nat} {c : Char}
  {arrange : Nat × Nat → List Junction → List Junction}

/-! ## One solution -/

theorem justified_congr {holds holds' : Nat × Nat → Char → Prop}
    (h : ∀ p ∈ sources place, ∀ x, holds p x ↔ holds' p x) :
    g.Justified word holds place c ↔ g.Justified word holds' place c := by
  unfold Justified
  split_ifs
  · rfl
  · refine exists_congr fun split => and_congr_right fun hs => exists_congr fun b =>
      exists_congr fun d => and_congr_right fun _ => ?_
    rw [h _ (mem_sources.2 ⟨split, hs, .inl rfl⟩), h _ (mem_sources.2 ⟨split, hs, .inr rfl⟩)]

/-- The derivations solve the recurrence. -/
theorem derives_iff_justified (hn : g.nonterminals.Nodup) (hw : place.1 + place.2 < word.length) :
    g.Derives c (stretch word place.1 place.2) ↔
      g.Justified word (fun p x => g.Derives x (stretch word p.1 p.2)) place c := by
  obtain ⟨span, offset⟩ := place
  unfold Justified
  split_ifs with h0
  · change span = 0 at h0
    subst h0
    have hoffset : word[offset]? = some word[offset] := List.getElem?_eq_getElem (by omega)
    simp only [derives_stretch_zero hoffset, hoffset, Option.some.injEq, exists_eq_left',
      mem_rules_iff hn]
  · simp only [derives_stretch h0 hw, mem_rules_iff hn]

theorem Solves.exactAt (hn : g.nonterminals.Nodup) (h : g.Solves word cells) {place : Nat × Nat}
    (hw : place.1 + place.2 < word.length) : g.ExactAt word cells place := by
  induction hspan : place.1 using Nat.strong_induction_on generalizing place with
  | _ span ih =>
    intro c
    rw [h place hw c, derives_iff_justified hn hw]
    refine justified_congr fun p hp => ?_
    obtain ⟨hlt, hin⟩ := lt_of_mem_sources hp hw
    exact ih p.1 (hspan ▸ hlt) hin rfl

theorem solves_of_exactAt (hn : g.nonterminals.Nodup)
    (h : ∀ place, place.1 + place.2 < word.length → g.ExactAt word cells place) :
    g.Solves word cells := by
  intro place hw c
  rw [h place hw c, derives_iff_justified hn hw]
  exact justified_congr fun p hp x => (h p (lt_of_mem_sources hp hw).2 x).symm

/-! ## Evaluation in any order -/

theorem mem_scan_iff {a : Alternative} : c ∈ g.scan a ↔ (c, a) ∈ g.rules := by
  simp [scan]

theorem mem_junctions_iff {j : Junction} : j ∈ cells.junctions place ↔
    j.split < place.1 ∧ j.left ∈ cells (j.split, place.2)
      ∧ j.right ∈ cells (place.1 - j.split - 1, place.2 + j.split + 1) := by
  simp only [Cells.junctions, List.mem_flatMap, List.mem_map, List.mem_range]
  refine ⟨fun h => ?_, fun ⟨hs, hl, hr⟩ => ⟨_, hs, _, hl, _, hr, rfl⟩⟩
  obtain ⟨_, hs, _, hl, _, hr, rfl⟩ := h
  exact ⟨hs, hl, hr⟩

theorem mem_foldl_union {js : List Junction} {found : List Char} :
    c ∈ js.foldl (fun found j => found ∪ g.scan (.pair j.left j.right)) found ↔
      c ∈ found ∨ ∃ j ∈ js, (c, .pair j.left j.right) ∈ g.rules := by
  induction js generalizing found with
  | nil => simp
  | cons j js ih => simp [ih, mem_scan_iff, or_assoc]

/-- However the junctions are arranged, a cell gets what the recurrence puts there. -/
theorem mem_plainCell_iff (ha : ∀ place js j, j ∈ arrange place js ↔ j ∈ js)
    (hw : place.1 + place.2 < word.length) : c ∈ g.plainCell word arrange cells place ↔
      g.Justified word (fun p x => x ∈ cells p) place c := by
  unfold plainCell Justified
  split_ifs with h0
  · have hoffset : word[place.2]? = some word[place.2] := List.getElem?_eq_getElem (by omega)
    simp [hoffset, mem_scan_iff]
  · simp only [mem_foldl_union, ha, mem_junctions_iff, List.not_mem_nil, false_or]
    refine ⟨fun ⟨j, ⟨hs, hl, hr⟩, hj⟩ => ?_, fun ⟨split, hs, b, d, hbd, hb, hd⟩ => ?_⟩
    · exact ⟨j.split, hs, j.left, j.right, hj, hl, hr⟩
    · exact ⟨⟨split, b, d⟩, ⟨hs, hb, hd⟩, hbd⟩

theorem exactAt_step (hn : g.nonterminals.Nodup)
    (ha : ∀ place js j, j ∈ arrange place js ↔ j ∈ js) {done : List (Nat × Nat)}
    (h : ∀ p ∈ done, g.ExactAt word cells p) (hw : place.1 + place.2 < word.length)
    (hs : ∀ p ∈ sources place, p ∈ done) : ∀ p ∈ done ++ [place],
      g.ExactAt word (Function.update cells place (g.plainCell word arrange cells place)) p := by
  intro p hp c
  rcases eq_or_ne p place with rfl | hne
  · rw [Function.update_self, mem_plainCell_iff ha hw, derives_iff_justified hn hw]
    exact justified_congr fun q hq => h q (hs q hq)
  · rw [Function.update_of_ne hne]
    rcases List.mem_append.1 hp with hp | hp
    · exact h p hp c
    · exact absurd (List.mem_singleton.1 hp) hne

theorem exactAt_evaluate (hn : g.nonterminals.Nodup)
    (ha : ∀ place js j, j ∈ arrange place js ↔ j ∈ js) {order : List (Nat × Nat)}
    (ho : Grounded word.length order) {p : Nat × Nat} (hp : p ∈ order) :
    g.ExactAt word (g.evaluate word arrange order) p := by
  let P (cells : Cells) (done : List (Nat × Nat)) : Prop := ∀ q ∈ done, g.ExactAt word cells q
  have hstart : P (fun _ => []) [] := by
    intro q hq
    cases hq
  have hend : P (g.evaluate word arrange order) ([] ++ order) :=
    Grounded.foldl ho (fun hw hs h => exactAt_step hn ha h hw hs) hstart
  exact hend p hp

/-! ## The table -/

theorem holds_decide (g : Grammar) (found : List Char) :
    Positions.Holds g ⟨g.nonterminals.map fun c => decide (c ∈ found)⟩ (· ∈ found) where
  width := by simp [Positions.width]
  contains_iff i := by
    rcases hi : g.nonterminals[i]? with _ | c <;> simp [Positions.contains, hi]

theorem Consistent.table_eq_ofCells (hg : g.Consistent)
    (h : ∀ place, place.1 + place.2 < word.length → g.ExactAt word cells place) :
    g.table word = .ofCells word.length g.nonterminals cells := by
  obtain ⟨hl, hn, hf, -⟩ := hg.filling_inv word
  change (g.table word).wordLength = word.length at hl
  change (g.table word).nonterminals = g.nonterminals at hn
  have hcells : (g.table word).cells.toList = (coordinates word.length).map fun place =>
      ⟨g.nonterminals.map fun c => decide (c ∈ cells place)⟩ := by
    rw [show (g.table word).cells.toList = _ from hf.toList_cells]
    change ((coordinates (g.table word).wordLength).map fun place =>
      (g.table word).get place.1 place.2) = _
    rw [hl]
    refine List.map_congr_left fun place hp => ?_
    have hw := mem_coordinates.1 hp
    exact (hg.table_final hw).unique ((holds_decide g _).congr (h place hw))
  calc g.table word
      = ⟨(g.table word).wordLength, (g.table word).nonterminals,
          (g.table word).cells.toList.toArray⟩ := rfl
    _ = .ofCells word.length g.nonterminals cells := by
        rw [hl, hn, hcells]
        rfl

/-- The table of a word holds the one solution of the recurrence, and every evaluation finds it:
cell by cell in any order in which each cell comes behind the cells it is made from, with the
junctions of a cell in any order. -/
theorem derivationTable_unique (hg : g.Reachable) {start : Char}
    (hq : g.checkQuery word = .ok start) :
    g.Solves word (fun place => (g.table word).cell place.1 place.2)
      ∧ (∀ cells, g.Solves word cells →
        g.derivationTable word = .ok (.ofCells word.length g.nonterminals cells))
      ∧ ∀ (order : List (Nat × Nat)) (arrange : Nat × Nat → List Junction → List Junction),
        Grounded word.length order →
        (∀ place, place.1 + place.2 < word.length → place ∈ order) →
        (∀ place js j, j ∈ arrange place js ↔ j ∈ js) →
        g.derivationTable word =
          .ok (.ofCells word.length g.nonterminals (g.evaluate word arrange order)) := by
  have hc := hg.consistent
  have hn := hc.nonterminals_nodup
  have htable : ∀ cells : Cells,
      (∀ place, place.1 + place.2 < word.length → g.ExactAt word cells place) →
        g.derivationTable word = .ok (.ofCells word.length g.nonterminals cells) := fun cells h =>
    derivationTable_eq_ok_iff.2 ⟨⟨start, hq⟩, hc.table_eq_ofCells h⟩
  refine ⟨solves_of_exactAt hn fun place hw c => ?_, fun cells h => htable cells fun place hw =>
    h.exactAt hn hw, fun order arrange ho hall ha => htable _ fun place hw =>
    exactAt_evaluate hn ha ho (hall place hw)⟩
  obtain ⟨hl, hnt, hf, -⟩ := hc.filling_inv word
  have hmem := Table.mem_cell_iff hf hnt (hl ▸ hw) (hc.table_final hw) (c := c)
  exact hmem.trans (and_iff_right_of_imp Derives.mem_nonterminals)

/-- The columns from the right, with the junctions of each cell met backwards and twice. -/
theorem derivationTable_sample : sample.Reachable
    ∧ sample.checkQuery ['a', 'b', 'b'] = .ok 'S'
    ∧ Grounded 3 (columns 3)
    ∧ sample.derivationTable ['a', 'b', 'b'] = .ok (.ofCells 3 sample.nonterminals
      (sample.evaluate ['a', 'b', 'b'] (fun _ js => js.reverse ++ js) (columns 3))) := by
  have hq : sample.checkQuery ['a', 'b', 'b'] = .ok 'S' := by decide +kernel
  have h := (derivationTable_unique reachable_sample hq).2.2 (columns 3)
    (fun _ js => js.reverse ++ js) (grounded_columns 3) (fun _ => mem_columns.2) (by simp)
  exact ⟨reachable_sample, hq, grounded_columns 3, h⟩

end Grammar

end Chomsky
