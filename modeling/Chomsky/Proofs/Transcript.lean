import Chomsky.Proofs.Delimiters
import Chomsky.Proofs.Description
import Chomsky.Proofs.Membership
import Chomsky.Proofs.Safety

/-!
# The transcript of a filling

While a table is filled every cell is reported as it is written. Take any order of different cells
in which each comes behind its sources. Then a cell is only read once it is written, and it is
written once: a sheet that has no answer otherwise always has one (`Transcribed.foldl`), and what is
written stays as it is (`keeps_foldl`). So the reports of a filling are those of the finished table,
cell by cell, and the table can be read off the messages (`filling_transcript`).
-/

namespace Chomsky

/-! ## Cells that are written once -/

/-- The sets that are written in the cells so far. -/
abbrev Sheet := Nat × Nat → Option Positions

namespace Sheet

def blank : Sheet := fun _ => none

/-- Writes a cell in which nothing is written yet. -/
def write? (sheet : Sheet) (place : Nat × Nat) (s : Positions) : Option Sheet :=
  match sheet place with
  | none => some (Function.update sheet place (some s))
  | some _ => none

end Sheet

/-- What derives the stretch of a cell, if all the cells it is made from are written. -/
def Producers.atSheet? (p : Producers) (word : Word) (sheet : Sheet) (place : Nat × Nat) :
    Option Positions :=
  if place.1 = 0 then some (p.atLetter word place.2)
  else (List.range place.1).foldlM (fun found split => do
    let left ← sheet (split, place.2)
    let right ← sheet (place.1 - split - 1, place.2 + split + 1)
    return p.combine left right found) (.empty p.width)

/-- Fills one cell from those that are written. -/
def Sheet.fill? (p : Producers) (word : Word) (sheet : Sheet) (place : Nat × Nat) :
    Option Sheet := do
  sheet.write? place (← p.atSheet? word sheet place)

-- the cell of two letters is made from both cells of one
example (p : Producers) (word : Word) : Sheet.blank.fill? p word (1, 0) = none := rfl

/-! ## Reports -/

/-- What is reported of a cell that holds what it holds in this table. -/
def Table.report (t : Table) (place : Nat × Nat) : Event :=
  .filled place.1 place.2 (t.cell place.1 place.2)

/-- A number that ends where `x` stands, and the text from there on. -/
def numberUpTo (x : Char) (text : List Char) : Nat × List Char :=
  (Nat.ofDigitChars 10 (text.takeWhile (· ≠ x)) 0, text.dropWhile (· ≠ x))

/-- The cell that a message is about, with the members it shows. -/
def Event.cell? (message : String) : Option ((Nat × Nat) × List Char) := do
  let text ← after? "Cell (" message.toList
  let (span, text) := numberUpTo ',' text
  let text ← after? ", " text
  let (offset, text) := numberUpTo ')' text
  let text ← after? ") = \x7b" text
  return ((span, offset), (text.takeWhile (· ≠ '\x7d')).filter (· ≠ ','))

/-- A filling after so many cells. -/
def Grammar.fillingAt (g : Grammar) (word : Word) (cells : Nat) : Filling :=
  ((coordinates word.length).take cells).foldl (Filling.step g.producers word)
    ⟨.blank word.length g.nonterminals, #[]⟩

/-! ## The filling order -/

theorem coordinates_ascending (n : Nat) :
    (coordinates n).Pairwise fun p q => p.1 < q.1 ∨ p.1 = q.1 ∧ p.2 < q.2 := by
  refine List.pairwise_flatMap.2 ⟨fun span _ => ?_, ?_⟩
  · exact List.pairwise_map.2 (List.pairwise_lt_range.imp fun h => .inr ⟨rfl, h⟩)
  · refine List.pairwise_lt_range.imp fun h p hp q hq => ?_
    obtain ⟨_, -, rfl⟩ := List.mem_map.1 hp
    obtain ⟨_, -, rfl⟩ := List.mem_map.1 hq
    exact .inl h

theorem nodup_coordinates (n : Nat) : (coordinates n).Nodup := by
  refine (coordinates_ascending n).imp fun h he => ?_
  subst he
  omega

theorem length_coordinates (n : Nat) : (coordinates n).length = n * (n + 1) / 2 := by
  have h := congrArg List.length (Table.map_slot_coordinates n)
  simpa only [List.length_map, List.length_range] using h

/-! ## What is written stays -/

namespace Filling

variable {p : Producers} {word : Word} {n : Nat} {f : Filling} {done rest : List (Nat × Nat)}
  {place q : Nat × Nat} {sheet : Sheet}

/-- Whether a cell is the same in two tables, and lists the same nonterminals. -/
def Keeps (q : Nat × Nat) (t t' : Table) : Prop :=
  t'.get? q.1 q.2 = t.get? q.1 q.2 ∧ t'.cell q.1 q.2 = t.cell q.1 q.2

theorem full_step (hf : f.table.Full) : (f.step p word place).table.Full := hf.put ..

theorem wordLength_step : (f.step p word place).table.wordLength = f.table.wordLength :=
  Table.wordLength_put ..

theorem keeps_step (hf : f.table.Full) (hw : place.1 + place.2 < f.table.wordLength)
    (hq : q ≠ place) : Keeps q f.table (f.step p word place).table := by
  have hne : ¬ (q.1 = place.1 ∧ q.2 = place.2) := fun h => hq (Prod.ext h.1 h.2)
  have hget : (f.step p word place).table.get? q.1 q.2 = f.table.get? q.1 q.2 :=
    (Table.get?_put hf hw _ q.1 q.2).trans (if_neg hne)
  have hnames : (f.step p word place).table.nonterminals = f.table.nonterminals :=
    Table.nonterminals_put ..
  exact ⟨hget, by simp only [Table.cell, hget, hnames]⟩

theorem keeps_foldl (hf : f.table.Full) (hr : ∀ r ∈ rest, r.1 + r.2 < f.table.wordLength)
    (hq : q ∉ rest) : Keeps q f.table (rest.foldl (step p word) f).table := by
  induction rest generalizing f with
  | nil => exact ⟨rfl, rfl⟩
  | cons place rest ih =>
    rw [List.forall_mem_cons] at hr
    rw [List.mem_cons, not_or] at hq
    have hnow : Keeps q f.table (f.step p word place).table := keeps_step hf hr.1 hq.1
    have hlater : Keeps q (f.step p word place).table
        (rest.foldl (Filling.step p word) (f.step p word place)).table :=
      ih (full_step hf) (fun r h => wordLength_step.symm ▸ hr.2 r h) hq.2
    exact ⟨hlater.1.trans hnow.1, hlater.2.trans hnow.2⟩

/-! ## One report for each cell -/

/-- What holds of a filling and of a sheet filled beside it, with the cells filled so far. -/
structure Transcribed (n : Nat) (f : Filling) (done : List (Nat × Nat)) (sheet : Sheet) : Prop where
  full : f.table.Full
  wordLength : f.table.wordLength = n
  log : f.log.toList = done.map f.table.report
  sheet : ∀ q, sheet q = if q ∈ done then f.table.get? q.1 q.2 else none

theorem transcribed_start (names : List Char) :
    Transcribed n ⟨.blank n names, #[]⟩ [] .blank where
  full := Table.full_blank _ _
  wordLength := rfl
  log := rfl
  sheet _ := rfl

theorem Transcribed.sheet_of_mem (h : Transcribed n f done sheet) (hq : q ∈ done)
    (hw : q.1 + q.2 < n) : sheet q = some (f.table.get q.1 q.2) := by
  rw [h.sheet, if_pos hq, Table.get?_eq_some_get h.full (h.wordLength ▸ hw)]

/-- Nothing but the sources of a cell is read to fill it. -/
theorem Transcribed.atSheet?_eq (h : Transcribed n f done sheet) (hw : place.1 + place.2 < n)
    (hs : ∀ q ∈ sources place, q ∈ done) :
    p.atSheet? word sheet place = some (p.atCell word f.table place.1 place.2) := by
  unfold Producers.atSheet? Producers.atCell
  split_ifs with h0
  · rfl
  · refine (foldlM_eq_some_foldl (fun _ => True) (fun found _ split hsplit => ⟨?_, trivial⟩)
      trivial).1
    have hsources : ∀ q ∈ sources place, sheet q = some (f.table.get q.1 q.2) := fun q hq =>
      h.sheet_of_mem (hs q hq) (lt_of_mem_sources hq hw).2
    rw [List.mem_range] at hsplit
    rw [hsources _ (mem_sources.2 ⟨split, hsplit, .inl rfl⟩),
      hsources _ (mem_sources.2 ⟨split, hsplit, .inr rfl⟩)]
    rfl

theorem Transcribed.step (h : Transcribed n f done sheet) (hw : place.1 + place.2 < n)
    (hs : ∀ q ∈ sources place, q ∈ done) (hnew : place ∉ done) :
    ∃ next, sheet.fill? p word place = some next
      ∧ Transcribed n (f.step p word place) (done ++ [place]) next := by
  have hw' : place.1 + place.2 < f.table.wordLength := h.wordLength ▸ hw
  have hblank : sheet place = none := by rw [h.sheet, if_neg hnew]
  have hkeeps : ∀ q ∈ done, Keeps q f.table (f.step p word place).table := fun q hq =>
    keeps_step h.full hw' (ne_of_mem_of_not_mem hq hnew)
  refine ⟨Function.update sheet place (some (p.atCell word f.table place.1 place.2)), ?_,
    full_step h.full, wordLength_step.trans h.wordLength, ?_, fun q => ?_⟩
  · simp only [Sheet.fill?, Sheet.write?, h.atSheet?_eq hw hs, hblank, Option.bind_eq_bind,
      Option.bind_some]
  · have hold : done.map (f.step p word place).table.report = done.map f.table.report :=
      List.map_congr_left fun q hq => by simp only [Table.report, (hkeeps q hq).2]
    rw [List.map_append, hold, ← h.log]
    exact Array.toList_push
  · rcases eq_or_ne q place with rfl | hq
    · rw [Function.update_self, if_pos (by simp)]
      exact ((Table.get?_put h.full hw' _ q.1 q.2).trans (if_pos ⟨rfl, rfl⟩)).symm
    · rw [Function.update_of_ne hq, h.sheet]
      simp only [List.mem_append, List.mem_singleton, hq, or_false]
      split_ifs with hd
      · exact (hkeeps q hd).1.symm
      · rfl

theorem Transcribed.foldl (h : Transcribed n f done sheet) (ho : Grounded n (done ++ rest))
    (hn : (done ++ rest).Nodup) : ∃ last, rest.foldlM (Sheet.fill? p word) sheet = some last
      ∧ Transcribed n (rest.foldl (Filling.step p word) f) (done ++ rest) last := by
  induction rest generalizing f done sheet with
  | nil => exact ⟨sheet, rfl, by simpa using h⟩
  | cons place rest ih =>
    obtain ⟨hw, hs⟩ := ho done place rest rfl
    have hnew : place ∉ done := fun hm =>
      List.disjoint_of_nodup_append hn hm List.mem_cons_self
    obtain ⟨next, hnext, h⟩ : ∃ next, sheet.fill? p word place = some next
      ∧ Transcribed n (f.step p word place) (done ++ [place]) next := h.step hw hs hnew
    rw [List.append_cons] at ho hn
    obtain ⟨last, hlast, h⟩ := ih h ho hn
    refine ⟨last, ?_, by rwa [List.append_cons]⟩
    rw [List.foldlM_cons, hnext]
    exact hlast

end Filling

/-! ## Messages -/

theorem filter_commas : ∀ {letters : List Char}, ',' ∉ letters →
    (commas letters).filter (· ≠ ',') = letters
  | [], _ => rfl
  | [c], h => by
    have hc : c ≠ ',' := by simpa [eq_comm] using h
    simp [commas, hc]
  | c :: d :: letters, h => by
    rw [List.mem_cons, not_or] at h
    have hstep : commas (c :: d :: letters) = c :: ',' :: commas (d :: letters) := by
      simp [commas, List.intercalate_cons_cons]
    have ih := filter_commas h.2
    simp only [hstep, List.filter_cons, ih]
    simp [Ne.symm h.1]

theorem numberUpTo_repr {x : Char} (hx : x.isDigit = false) (n : Nat) (rest : List Char) :
    numberUpTo x (n.repr.toList ++ x :: rest) = (n, x :: rest) := by
  have hend : x ∉ n.repr.toList := by
    intro h
    rw [Nat.toList_repr] at h
    have hdigit : x.isDigit = true := Nat.isDigit_of_mem_toDigits (by decide) (by decide) h
    rw [hx] at hdigit
    cases hdigit
  rw [numberUpTo, takeWhile_append_cons hend, dropWhile_append_cons hend, Nat.toList_repr,
    Nat.ofDigitChars_ten_toDigits]

namespace Event

theorem toList_message_filled (span offset : Nat) (members : List Char) :
    (filled span offset members).message.toList =
      "Cell (".toList ++ (span.repr.toList ++ (", ".toList ++ (offset.repr.toList
        ++ (") = \x7b".toList ++ (commas members ++ ['\x7d']))))) := by
  simp [message, Grammar.alphabetText, toString, commas, Function.comp_def]

theorem toList_message_judged (word : Word) (start : Char) (derived : Bool) :
    (judged word start derived).message.toList =
      '`' :: word ++ (if derived then "` is derived from " else "` is not derived from ").toList
        ++ [start] := by
  cases derived <;> simp [message, toString]

/-- A cell with its members can be read off its message. -/
theorem cell?_message {members : List Char} (h : ∀ c ∈ members, c ∉ delimiters)
    (span offset : Nat) :
    cell? (filled span offset members).message = some ((span, offset), members) := by
  have hcomma : ',' ∉ members := fun hm => h _ hm (by decide)
  have hbrace : '\x7d' ∉ commas members := fun hm =>
    (mem_commas hm).elim (by decide) fun hm => h _ hm (by decide)
  -- what stands behind each number begins with the character that ends it
  have hspan : ∀ rest, numberUpTo ',' (span.repr.toList ++ (", ".toList ++ rest)) =
      (span, ", ".toList ++ rest) := fun rest => numberUpTo_repr (by decide) span (' ' :: rest)
  have hoffset : ∀ rest, numberUpTo ')' (offset.repr.toList ++ (") = \x7b".toList ++ rest)) =
      (offset, ") = \x7b".toList ++ rest) :=
    fun rest => numberUpTo_repr (by decide) offset (" = \x7b".toList ++ rest)
  simp only [cell?, toList_message_filled, after?_append, hspan, hoffset, Option.bind_eq_bind,
    Option.bind_some, takeWhile_append_cons hbrace, filter_commas hcomma]
  rfl

end Event

/-! ## The transcript of a word -/

theorem Grounded.of_append {n : Nat} {done rest : List (Nat × Nat)}
    (h : Grounded n (done ++ rest)) : Grounded n done := by
  rintro before place after rfl
  exact h before place (after ++ rest) (by simp)

namespace Grammar

open Filling

variable {g : Grammar} {word : Word} {start : Char}

theorem tabulate_of_ok (h : g.checkQuery word = .ok start) :
    g.tabulate word = .ok ⟨g.table word, (g.filling word).log.toList⟩ := by
  simp only [tabulate, h]
  rfl

theorem judge_of_ok (h : g.checkQuery word = .ok start) :
    g.judge word = .ok ⟨(g.table word).derivesWord start, (g.filling word).log.toList
      ++ [.judged word start ((g.table word).derivesWord start)]⟩ := by
  simp only [judge, h]
  rfl

theorem fillingAt_of_le {cells : Nat} (h : (coordinates word.length).length ≤ cells) :
    g.fillingAt word cells = g.filling word := by
  rw [fillingAt, List.take_of_length_le h]
  rfl

theorem exists_transcribed (g : Grammar) (word : Word) (cells : Nat) : ∃ sheet,
    ((coordinates word.length).take cells).foldlM (Sheet.fill? g.producers word) .blank = some sheet
      ∧ Transcribed word.length (g.fillingAt word cells) ((coordinates word.length).take cells)
        sheet := by
  have ho := grounded_coordinates word.length
  rw [← List.take_append_drop cells (coordinates word.length)] at ho
  have hn : ((coordinates word.length).take cells).Nodup :=
    (nodup_coordinates _).sublist (List.take_sublist _ _)
  have hgrounded : Grounded word.length ([] ++ (coordinates word.length).take cells) :=
    ho.of_append
  exact (transcribed_start g.nonterminals).foldl hgrounded hn

/-- A cell that is filled stays as it is up to the end. -/
theorem keeps_fillingAt {cells : Nat} {q : Nat × Nat}
    (hq : q ∈ (coordinates word.length).take cells) :
    Keeps q (g.fillingAt word cells).table (g.table word) := by
  obtain ⟨sheet, -, h⟩ := g.exists_transcribed word cells
  have hsplit := List.take_append_drop cells (coordinates word.length)
  have hfilling : g.filling word = ((coordinates word.length).drop cells).foldl
      (Filling.step g.producers word) (g.fillingAt word cells) := by
    rw [fillingAt, ← List.foldl_append, hsplit]
    rfl
  have hn := nodup_coordinates word.length
  rw [← hsplit] at hn
  rw [table, hfilling]
  refine keeps_foldl h.full (fun r hr => ?_) (List.disjoint_of_nodup_append hn hq)
  rw [h.wordLength]
  exact mem_coordinates.1 (List.mem_of_mem_drop hr)

theorem log_fillingAt (g : Grammar) (word : Word) (cells : Nat) :
    (g.fillingAt word cells).log.toList =
      ((coordinates word.length).take cells).map (g.table word).report := by
  obtain ⟨sheet, -, h⟩ := g.exists_transcribed word cells
  rw [h.log]
  refine List.map_congr_left fun q hq => ?_
  rw [Table.report, Table.report, (keeps_fillingAt hq).2]

theorem log_filling (g : Grammar) (word : Word) :
    (g.filling word).log.toList = (coordinates word.length).map (g.table word).report := by
  have h := g.log_fillingAt word (coordinates word.length).length
  rwa [fillingAt_of_le le_rfl, List.take_length] at h

theorem foldlM_fill? (g : Grammar) (word : Word) :
    (coordinates word.length).foldlM (Sheet.fill? g.producers word) .blank =
      some fun q => (g.table word).get? q.1 q.2 := by
  obtain ⟨sheet, hsheet, h⟩ := g.exists_transcribed word (coordinates word.length).length
  rw [List.take_length] at hsheet h
  rw [fillingAt_of_le le_rfl] at h
  rw [hsheet, Option.some_inj]
  funext q
  rw [h.sheet]
  split_ifs with hq
  · rfl
  · rw [mem_coordinates] at hq
    exact (Table.get?_of_not_lt (h.wordLength ▸ hq)).symm

theorem Consistent.cell?_message_report (hg : g.Consistent) (place : Nat × Nat) :
    Event.cell? ((g.table word).report place).message =
      some (place, (g.table word).cell place.1 place.2) := by
  refine Event.cell?_message (fun c hc hd => ?_) place.1 place.2
  have hmem := ((g.table word).cell_sublist place.1 place.2).subset hc
  rw [hg.nonterminals_table] at hmem
  exact hg.delimiter_not_mem_nonterminals hd hmem

/-- A word that is tabulated leaves one report for each cell, row by row and each row from left to
right, and each report shows the members that its cell has in the end. After any number of cells the
reports are the first of these, and the cells filled by then have their last content: filled on a
sheet that is written once and read where it is written only, the table is the same. A judged word
leaves the same reports and one more, with the verdict that is returned. -/
theorem filling_transcript (hg : g.Reachable) (hq : g.checkQuery word = .ok start) :
    let places := coordinates word.length
    let t := g.table word
    let reports := places.map t.report
    g.tabulate word = .ok ⟨t, reports⟩
      ∧ reports.length = word.length * (word.length + 1) / 2
      ∧ (∀ place, place ∈ places ↔ place.1 + place.2 < word.length)
      ∧ places.Pairwise (fun p q => p.1 < q.1 ∨ p.1 = q.1 ∧ p.2 < q.2)
      ∧ (∀ r ∈ reports, r.level = .trace)
      ∧ reports.map (fun r => Event.cell? r.message) =
        places.map (fun place => some (place, t.cell place.1 place.2))
      ∧ (∀ cells, (g.fillingAt word cells).log.toList = reports.take cells
        ∧ ∀ place ∈ places.take cells,
          (g.fillingAt word cells).table.get? place.1 place.2 = t.get? place.1 place.2)
      ∧ places.foldlM (Sheet.fill? g.producers word) .blank =
        some (fun place => t.get? place.1 place.2)
      ∧ ∃ derived, g.isDerived word = .ok derived
        ∧ g.judge word = .ok ⟨derived, reports ++ [.judged word start derived]⟩
        ∧ (Event.judged word start derived).level = .debug
        ∧ (Event.judged word start derived).message.toList = '`' :: word
          ++ (if derived then "` is derived from " else "` is not derived from ").toList
          ++ [start] := by
  intro places t reports
  have hlog : (g.filling word).log.toList = reports := g.log_filling word
  refine ⟨?_, ?_, fun _ => mem_coordinates, coordinates_ascending _, ?_, ?_, fun cells => ⟨?_, ?_⟩,
    g.foldlM_fill? word, t.derivesWord start, ?_, ?_, rfl, Event.toList_message_judged _ _ _⟩
  · rw [tabulate_of_ok hq, hlog]
  · rw [List.length_map, length_coordinates]
  · intro r hr
    obtain ⟨place, -, rfl⟩ := List.mem_map.1 hr
    rfl
  · rw [List.map_map]
    exact List.map_congr_left fun place _ => hg.consistent.cell?_message_report place
  · rw [log_fillingAt, List.map_take]
  · exact fun place hplace => (keeps_fillingAt hplace).1.symm
  · rw [isDerived_eq, hq]
    rfl
  · rw [judge_of_ok hq, hlog]

theorem filling_transcript_sample : sample.Reachable
    ∧ sample.checkQuery ['a', 'b', 'b'] = .ok 'S'
    ∧ (∃ reports, sample.judge ['a', 'b', 'b'] =
        .ok ⟨true, reports ++ [.judged ['a', 'b', 'b'] 'S' true]⟩
      ∧ reports.length = 6
      ∧ reports.map (fun r => Event.cell? r.message) =
        [some ((0, 0), ['A']), some ((0, 1), ['B']), some ((0, 2), ['B']), some ((1, 0), ['S']),
          some ((1, 1), ['B']), some ((2, 0), ['S'])]) := by
  have hq : sample.checkQuery ['a', 'b', 'b'] = .ok 'S' := by decide +kernel
  have hderived : sample.isDerived ['a', 'b', 'b'] = .ok true := by decide +kernel
  have hcells : (coordinates 3).map (fun place =>
      some (place, (sample.table ['a', 'b', 'b']).cell place.1 place.2)) =
        [some ((0, 0), ['A']), some ((0, 1), ['B']), some ((0, 2), ['B']), some ((1, 0), ['S']),
          some ((1, 1), ['B']), some ((2, 0), ['S'])] := by decide +kernel
  obtain ⟨-, hlength, -, -, -, hshown, -, -, derived, hd, hjudge, -, -⟩ :=
    filling_transcript reachable_sample hq
  cases hd.symm.trans hderived
  exact ⟨reachable_sample, hq, _, hjudge, hlength, hshown.trans hcells⟩

end Grammar

end Chomsky
