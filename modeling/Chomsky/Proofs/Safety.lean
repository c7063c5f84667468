import Chomsky.Proofs.Checked
import Chomsky.Proofs.Membership

/-!
# No check of a query fails

On a reachable grammar the sets of the producers have one width, which joining keeps
(`Producers.Exact.combine?_eq`), and the parts of every pair have positions. A cell inside the
triangle has a slot, and the numbers that lead to it fit in 64 bits if twice the number of cells
does (`Table.slot?_eq`). A table is filled inside the triangle only, from cells inside it, and what
it holds then are sets of the right width (`Table.Regular`). So the checked queries come out as the
queries do (`Grammar.queries_checked`).
-/

namespace Chomsky

theorem mapM_eq_some_map {α β : Type} {f? : α → Option β} {f : α → β} {l : List α}
    (h : ∀ x ∈ l, f? x = some (f x)) : l.mapM f? = some (l.map f) := by
  induction l with
  | nil => rfl
  | cons x l ih =>
    rw [List.forall_mem_cons] at h
    rw [List.mapM_cons, h.1, ih h.2]
    rfl

theorem foldlM_eq_some_foldl {α σ : Type} {f? : σ → α → Option σ} {f : σ → α → σ} {l : List α}
    (P : σ → Prop) (h : ∀ s, P s → ∀ x ∈ l, f? s x = some (f s x) ∧ P (f s x)) {s : σ} (hs : P s) :
    l.foldlM f? s = some (l.foldl f s) ∧ P (l.foldl f s) := by
  induction l generalizing s with
  | nil => exact ⟨rfl, hs⟩
  | cons x l ih =>
    simp only [List.forall_mem_cons] at h
    obtain ⟨hx, hnext⟩ := (h s hs).1
    rw [List.foldlM_cons, hx]
    exact ih (fun s hs => (h s hs).2) hnext

/-! ## No check of a set fails -/

section Sets

variable {g : Grammar} {p : Producers} {rules rest : List (Nat × Alternative)}

theorem noteProducer?_eq {κ : Type} [DecidableEq κ] {width i : Nat} (key : κ)
    {store : List (κ × Positions)} (hs : ∀ e ∈ store, e.2.width = width) (hi : i < width) :
    noteProducer? width key i store = some (noteProducer width key i store) := by
  induction store with
  | nil =>
    have hlt : i < (Positions.empty width).width := by rwa [Positions.width_empty]
    simp only [noteProducer?, Positions.insert?, if_pos hlt]
    rfl
  | cons e rest ih =>
    rw [List.forall_mem_cons] at hs
    simp only [noteProducer?, noteProducer, Positions.insert?, hs.1, if_pos hi, ih hs.2]
    split_ifs <;> rfl

namespace Producers

theorem Exact.note?_eq (hg : g.nonterminals.Nodup) (h : p.Exact g rules) {i : Nat}
    {a : Alternative} (hi : i < g.nonterminals.length) (ha : g.Declares a) :
    p.note? g (i, a) = some (p.note g (i, a)) := by
  have hw : i < p.width := h.width ▸ hi
  cases a with
  | letter t =>
    have hnote := noteProducer?_eq t (fun e he => (h.letters.sets e.1 e.2 he).1) hw
    simp only [note?, hnote]
    rfl
  | pair b d =>
    obtain ⟨l, hl⟩ := List.mem_iff_getElem?.1 ha.1
    obtain ⟨r, hr⟩ := List.mem_iff_getElem?.1 ha.2
    rw [← Grammar.position?_eq_some_iff hg] at hl hr
    have hnote := noteProducer?_eq (l, r) (fun e he => (h.pairs.sets e.1 e.2 he).1) hw
    simp only [note?, Producers.note, hl, hr, Option.bind_eq_bind, Option.bind_some, hnote]
    rfl

theorem Exact.foldlM_note? (hg : g.nonterminals.Nodup) (h : p.Exact g rules)
    (hr : ∀ r ∈ rest, r.1 < g.nonterminals.length ∧ g.Declares r.2) :
    rest.foldlM (note? g) p = some (rest.foldl (Producers.note g) p) := by
  induction rest generalizing p rules with
  | nil => rfl
  | cons r rest ih =>
    rw [List.forall_mem_cons] at hr
    rw [List.foldlM_cons, h.note?_eq hg hr.1.1 hr.1.2]
    exact ih (h.note hg hr.1.1 hr.1.2) hr.2

/-- Every set that is looked up has the width of those it is joined to. -/
theorem Exact.combine?_eq (h : p.Exact g rules) (left right : Positions) {into : Positions}
    (hw : into.width = p.width) :
    p.combine? left right into = some (p.combine left right into)
      ∧ (p.combine left right into).width = p.width := by
  refine foldlM_eq_some_foldl (fun found : Positions => found.width = p.width)
    (fun found hf ⟨i, j⟩ _ => ?_) hw
  simp only [addPair]
  rcases hq : p.ofPair? i j with _ | s
  · exact ⟨rfl, hf⟩
  · have hs : s.width = p.width := (h.pairs.sets _ s (h.ofPair?_eq_some_iff.1 hq)).1
    exact ⟨if_pos (hf.trans hs.symm), by simp [hf, hs]⟩

end Producers

theorem Grammar.Consistent.producers?_eq (hg : g.Consistent) :
    g.producers? = some g.producers := by
  refine (Producers.exact_nil g).foldlM_note? hg.nonterminals_nodup fun r hr => ?_
  obtain ⟨c, hc, ha⟩ := (mem_numberedRules_iff hg.nonterminals_nodup).1 hr
  exact ⟨(List.getElem?_eq_some_iff.1 hc).1, hg.declares c r.2 ha⟩

end Sets

/-! ## No check of a table fails -/

namespace Table

variable {t : Table} {span offset : Nat}

/-- Whether the cells of a triangle over `n` letters, twice, can be counted with 64 bits. -/
def Countable (n : Nat) : Prop := n * (n + 1) < UInt64.size

theorem Countable.succ_lt {n : Nat} (h : Countable n) : n + 1 < UInt64.size := by
  unfold Countable at h
  rcases Nat.eq_zero_or_pos n with rfl | hn
  · decide
  · exact (Nat.le_mul_of_pos_left (n + 1) hn).trans_lt h

theorem Countable.mul_lt {m n k : Nat} (h : Countable n) (hm : m ≤ n) (hk : k ≤ n + 1) :
    m * k < UInt64.size :=
  (Nat.mul_le_mul hm hk).trans_lt h

theorem blank?_eq {n : Nat} (h : Countable n) (nonterminals : List Char) :
    blank? n nonterminals = some (blank n nonterminals) := by
  simp only [blank?, add?_of_lt h.succ_lt, mul?_of_lt h, Option.bind_eq_bind, Option.bind_some]
  rfl

theorem hasCell?_eq (t : Table) (span offset : Nat) :
    t.hasCell? span offset = some (t.hasCell span offset) := by
  unfold hasCell? hasCell
  split_ifs with h
  · rw [sub?_of_le h.le]
    simp [h]
  · simp [h]

theorem hasCell_of_not_lt (h : ¬ span + offset < t.wordLength) : t.hasCell span offset = false := by
  rwa [← Bool.not_eq_true, hasCell_iff]

theorem slot?_eq (hc : Countable t.wordLength) (h : span + offset < t.wordLength) :
    t.slot? span offset = some (t.slot span offset) := by
  have hfull : span * t.wordLength < UInt64.size := hc.mul_lt (by omega) (by omega)
  have hmissing : span * (span - 1) < UInt64.size := hc.mul_lt (by omega) (by omega)
  have hle : span * (span - 1) / 2 ≤ span * t.wordLength :=
    (Nat.div_le_self _ _).trans (Nat.mul_le_mul_left _ (by omega))
  have hslot : t.slot span offset < UInt64.size := by
    have := slot_lt h
    unfold Countable at hc
    omega
  unfold slot?
  simp only [hasCell?_eq, hasCell_iff.2 h, mul?_of_lt hfull, mul?_of_lt hmissing, sub?_of_le hle,
    Option.bind_eq_bind, Option.bind_some, if_true]
  exact add?_of_lt hslot

theorem bits?_eq_get? (hc : Countable t.wordLength) (h : span + offset < t.wordLength) :
    t.bits? span offset = t.get? span offset := by
  have hget : t.get? span offset = t.cells[t.slot span offset]? := if_pos (hasCell_iff.2 h)
  rw [bits?, slot?_eq hc h, hget]
  rfl

theorem bits?_eq (ht : t.Full) (hc : Countable t.wordLength) (h : span + offset < t.wordLength) :
    t.bits? span offset = some (t.get span offset) :=
  (bits?_eq_get? hc h).trans (get?_eq_some_get ht h)

theorem put?_eq (ht : t.Full) (hc : Countable t.wordLength) (h : span + offset < t.wordLength)
    (s : Positions) : t.put? span offset s = some (t.put span offset s) := by
  have hslot : t.slot span offset < t.cells.size := ht ▸ slot_lt h
  simp only [put?, slot?_eq hc h, Option.bind_eq_bind, Option.bind_some, if_pos hslot, put,
    hasCell_iff.2 h, if_true]
  rfl

theorem mapM_getElem? {names : List Char} {positions : List Nat}
    (h : ∀ i ∈ positions, i < names.length) :
    (positions.mapM fun i => names[i]?) = some (positions.filterMap fun i => names[i]?) := by
  induction positions with
  | nil => rfl
  | cons i positions ih =>
    rw [List.forall_mem_cons] at h
    rw [List.mapM_cons, ih h.2, List.filterMap_cons, List.getElem?_eq_getElem h.1]
    rfl

theorem cell?_eq_of_width (ht : t.Full) (hc : Countable t.wordLength)
    (h : span + offset < t.wordLength) (hw : (t.get span offset).width = t.nonterminals.length) :
    t.cell? span offset = some (t.cell span offset) := by
  have hlt : ∀ i ∈ (t.get span offset).toList, i < t.nonterminals.length := fun i hi =>
    hw ▸ Positions.lt_width_of_contains (Positions.mem_toList.1 hi)
  simp only [cell?, cell, hasCell?_eq, hasCell_iff.2 h, bits?_eq ht hc h, get?_eq_some_get ht h,
    Option.bind_eq_bind, Option.bind_some, if_true, mapM_getElem? hlt]

theorem cell?_of_not_lt (h : ¬ span + offset < t.wordLength) : t.cell? span offset = some [] := by
  simp only [cell?, hasCell?_eq, hasCell_of_not_lt h, Option.bind_eq_bind, Option.bind_some,
    Bool.false_eq_true, if_false]
  rfl

theorem contains?_of_not_lt (h : ¬ span + offset < t.wordLength) (c : Char) :
    t.contains? span offset c = some false := by
  simp only [contains?, hasCell?_eq, hasCell_of_not_lt h, Option.bind_eq_bind, Option.bind_some,
    Bool.false_eq_true, if_false]
  rfl

/-- A table whose cells can be counted, with a slot for each and sets of the right width in them. -/
structure Regular (t : Table) : Prop where
  full : t.Full
  countable : Countable t.wordLength
  width : ∀ span offset, span + offset < t.wordLength →
    (t.get span offset).width = t.nonterminals.length

namespace Regular

theorem cell?_eq (h : t.Regular) (span offset : Nat) :
    t.cell? span offset = some (t.cell span offset) := by
  by_cases hin : span + offset < t.wordLength
  · exact cell?_eq_of_width h.full h.countable hin (h.width span offset hin)
  · rw [cell?_of_not_lt hin, cell_of_not_lt hin]

theorem contains?_eq (h : t.Regular) (span offset : Nat) (c : Char) :
    t.contains? span offset c = some (t.contains span offset c) := by
  by_cases hin : span + offset < t.wordLength
  · simp only [contains?, contains, hasCell?_eq, hasCell_iff.2 hin, bits?_eq h.full h.countable hin,
      get?_eq_some_get h.full hin, Option.bind_eq_bind, Option.bind_some, if_true]
    rcases t.nonterminals.idxOf? c with _ | i <;> rfl
  · rw [contains?_of_not_lt hin, contains_of_not_lt hin]

theorem derivesWord?_eq (h : t.Regular) (c : Char) :
    t.derivesWord? c = some (t.derivesWord c) := by
  unfold derivesWord? derivesWord
  split_ifs with hpos
  · rw [sub?_of_le hpos, Option.bind_eq_bind, Option.bind_some, h.contains?_eq]
    simp [hpos]
  · simp [hpos]

theorem columnWidth?_eq (h : t.Regular) {offset : Nat} (ho : offset ≤ t.wordLength) :
    t.columnWidth? offset = some (t.columnWidth offset) := by
  rw [columnWidth?, sub?_of_le ho]
  refine (foldlM_eq_some_foldl (fun _ => True) (fun widest _ span _ => ⟨?_, trivial⟩) trivial).1
  rw [h.cell?_eq]
  rfl

theorem row?_eq (h : t.Regular) {widths : List Nat} (hw : widths.length = t.wordLength)
    {span : Nat} (hs : span ≤ t.wordLength) : t.row? widths span = some (t.row widths span) := by
  have hcells : (List.range (t.wordLength - span)).mapM (t.paddedCell? widths span) =
      some ((List.range (t.wordLength - span)).map fun offset =>
        paddedCell (widths.getD offset 0) (t.cell span offset)) := by
    refine mapM_eq_some_map fun offset ho => ?_
    have hlt : offset < widths.length := by
      rw [List.mem_range] at ho
      omega
    rw [paddedCell?, h.cell?_eq, List.getD_eq_getElem?_getD, List.getElem?_eq_getElem hlt]
    rfl
  rw [row?, sub?_of_le hs, Option.bind_eq_bind, Option.bind_some, hcells, row, List.flatMap_def]
  rfl

theorem text?_eq (h : t.Regular) : t.text? = some t.text := by
  have hwidths : (List.range t.wordLength).mapM t.columnWidth? =
      some ((List.range t.wordLength).map t.columnWidth) :=
    mapM_eq_some_map fun offset ho => h.columnWidth?_eq (List.mem_range.1 ho).le
  have hrows : (List.range t.wordLength).mapM
      (t.row? ((List.range t.wordLength).map t.columnWidth)) =
        some ((List.range t.wordLength).map
          (t.row ((List.range t.wordLength).map t.columnWidth))) :=
    mapM_eq_some_map fun span hs => h.row?_eq (by simp) (List.mem_range.1 hs).le
  rw [text?, hwidths, Option.bind_eq_bind, Option.bind_some, hrows, text, List.flatMap_def]
  rfl

end Regular

end Table

/-! ## No check of a filling fails -/

theorem coordinates?_eq (n : Nat) : coordinates? n = some (coordinates n) := by
  have hrows : (List.range n).mapM (rowCoordinates? n) =
      some ((List.range n).map fun span =>
        (List.range (n - span)).map fun offset => (span, offset)) := by
    refine mapM_eq_some_map fun span hs => ?_
    rw [rowCoordinates?, sub?_of_le (List.mem_range.1 hs).le]
    rfl
  rw [coordinates?, hrows, coordinates, List.flatMap_def]
  rfl

namespace Producers

variable {g : Grammar} {p : Producers} {rules : List (Nat × Alternative)} {word : Word} {t : Table}
  {span offset : Nat}

theorem Exact.addSplit?_eq (h : p.Exact g rules) (ht : t.Full) (hc : Table.Countable t.wordLength)
    (hw : span + offset < t.wordLength) {found : Positions} (hf : found.width = p.width)
    {split : Nat} (hs : split < span) : p.addSplit? t span offset found split = some
      (p.combine (t.get split offset) (t.get (span - split - 1) (offset + split + 1)) found) := by
  have hlt := hc.succ_lt
  have hadd : add? offset split = some (offset + split) := add?_of_lt (by omega)
  have hadd' : add? (offset + split) 1 = some (offset + split + 1) := add?_of_lt (by omega)
  have hsub : sub? span split = some (span - split) := sub?_of_le hs.le
  have hsub' : sub? (span - split) 1 = some (span - split - 1) := sub?_of_le (by omega)
  have hleft := Table.bits?_eq ht hc (show split + offset < t.wordLength by omega)
  have hright := Table.bits?_eq ht hc
    (show span - split - 1 + (offset + split + 1) < t.wordLength by omega)
  simp only [addSplit?, hadd, hadd', hsub, hsub', hleft, hright, Option.bind_eq_bind,
    Option.bind_some, (h.combine?_eq _ _ hf).1]

theorem Exact.atCell?_eq (h : p.Exact g rules) (word : Word) (ht : t.Full)
    (hc : Table.Countable t.wordLength) (hw : span + offset < t.wordLength) :
    p.atCell? word t span offset = some (p.atCell word t span offset) := by
  unfold atCell? Producers.atCell
  split_ifs
  · rfl
  · refine (foldlM_eq_some_foldl (fun found => found.width = p.width) (fun found hf split hs => ?_)
      (Positions.width_empty _)).1
    exact ⟨h.addSplit?_eq ht hc hw hf (List.mem_range.1 hs), (h.combine?_eq _ _ hf).2⟩

end Producers

namespace Filling

variable {g : Grammar} {word : Word} {f : Filling} {done rest : List (Nat × Nat)}

theorem Inv.step?_eq (hg : g.Consistent) (h : Inv g word f done) (hc : Table.Countable word.length)
    {place : Nat × Nat} (hw : place.1 + place.2 < word.length)
    (hs : ∀ p ∈ sources place, p ∈ done) :
    f.step? g.producers word place = some (f.step g.producers word place) := by
  have hnext := h.step hg hw hs
  have hc' : Table.Countable f.table.wordLength := h.wordLength ▸ hc
  have hw' : place.1 + place.2 < f.table.wordLength := h.wordLength ▸ hw
  have hatCell := hg.producers_exact.atCell?_eq word h.full hc' hw'
  have hput := Table.put?_eq h.full hc' hw' (g.producers.atCell word f.table place.1 place.2)
  have hwidth := (hnext.final place (by simp)).width
  rw [← hnext.nonterminals] at hwidth
  have hcell := Table.cell?_eq_of_width hnext.full (hnext.wordLength ▸ hc)
    (hnext.wordLength ▸ hw) hwidth
  simp only [Filling.step] at hcell
  simp only [Filling.step?, hatCell, hput, hcell, Option.bind_eq_bind, Option.bind_some]
  rfl

theorem Inv.foldlM_step? (hg : g.Consistent) (h : Inv g word f done)
    (hc : Table.Countable word.length) (ho : Grounded word.length (done ++ rest)) :
    rest.foldlM (Filling.step? g.producers word) f =
      some (rest.foldl (Filling.step g.producers word) f) := by
  induction rest generalizing f done with
  | nil => rfl
  | cons place rest ih =>
    obtain ⟨hw, hs⟩ := ho done place rest rfl
    rw [List.foldlM_cons, h.step?_eq hg hc hw hs]
    exact ih (h.step hg hw hs) (by simpa using ho)

end Filling

namespace Grammar

variable {g : Grammar} {word : Word}

theorem Consistent.filling?_eq (hg : g.Consistent) (hc : Table.Countable word.length) :
    g.filling? word = some (g.filling word) := by
  have hfold := (Filling.inv_start g word #[]).foldlM_step? hg hc (grounded_coordinates word.length)
  simp only [filling?, hg.producers?_eq, Table.blank?_eq hc, coordinates?_eq, Option.bind_eq_bind,
    Option.bind_some]
  exact hfold

theorem Consistent.regular_table (hg : g.Consistent) (hc : Table.Countable word.length) :
    (g.table word).Regular := by
  obtain ⟨hl, hn, hf, -⟩ := hg.filling_inv word
  refine ⟨hf, hl ▸ hc, fun span offset hw => ?_⟩
  rw [show (g.table word).nonterminals = g.nonterminals from hn]
  exact (hg.table_final (hl ▸ hw)).width

/-- No step of a query is ever outside of its domain, and no number has more than 64 bits, if twice
the number of cells does not: with all checks the producers, the filling of the table with its
report and every query come out as without them, and so does whatever the table is asked for
afterwards, inside the triangle and outside. -/
theorem queries_checked (hg : g.Reachable) (hw : word.length * (word.length + 1) < 2 ^ 64) :
    g.producers? = some g.producers
      ∧ g.filling? word = some (g.filling word)
      ∧ g.derivationTable? word = some (g.derivationTable word)
      ∧ g.isDerived? word = some (g.isDerived word)
      ∧ g.tableText? word = some (g.tableText word)
      ∧ ∀ t, g.derivationTable word = .ok t →
        (∀ span offset, t.cell? span offset = some (t.cell span offset))
          ∧ (∀ span offset c, t.contains? span offset c = some (t.contains span offset c))
          ∧ (∀ c, t.derivesWord? c = some (t.derivesWord c))
          ∧ t.text? = some t.text := by
  have hcons := hg.consistent
  have hc : Table.Countable word.length := hw
  have hfilling := hcons.filling?_eq hc
  have ht := hcons.regular_table hc
  refine ⟨hcons.producers?_eq, hfilling, ?_, ?_, ?_, fun t htable => ?_⟩
  · rcases hq : g.checkQuery word with e | start <;>
      simp only [derivationTable?, derivationTable, tabulate, hq, hfilling] <;> rfl
  · rcases hq : g.checkQuery word with e | start
    · simp only [isDerived?, isDerived, judge, hq]
      rfl
    · have hword : (g.filling word).table.derivesWord? start = _ := ht.derivesWord?_eq start
      simp only [isDerived?, isDerived, judge, hq, hfilling, hword, Option.bind_eq_bind,
        Option.bind_some]
      rfl
  · rcases hq : g.checkQuery word with e | start
    · simp only [tableText?, tableText, derivationTable, tabulate, hq]
      rfl
    · have htext : (g.filling word).table.text? = _ := ht.text?_eq
      simp only [tableText?, tableText, derivationTable, tabulate, hq, hfilling, htext,
        Option.bind_eq_bind, Option.bind_some]
      rfl
  · obtain ⟨-, rfl⟩ := derivationTable_eq_ok_iff.1 htable
    exact ⟨ht.cell?_eq, ht.contains?_eq, ht.derivesWord?_eq, ht.text?_eq⟩

theorem queries_checked_sample : sample.Reachable
    ∧ ['a', 'b', 'b'].length * (['a', 'b', 'b'].length + 1) < 2 ^ 64
    ∧ sample.isDerived? ['a', 'b', 'b'] = some (.ok true)
    ∧ sample.filling? ['a', 'b', 'b'] = some (sample.filling ['a', 'b', 'b']) := by
  have hw : ['a', 'b', 'b'].length * (['a', 'b', 'b'].length + 1) < 2 ^ 64 := by decide
  have hchecked := queries_checked reachable_sample hw
  have hderived : sample.isDerived ['a', 'b', 'b'] = .ok true := by decide +kernel
  exact ⟨reachable_sample, hw, hchecked.2.2.2.1.trans (congrArg some hderived), hchecked.2.1⟩

end Grammar

end Chomsky
