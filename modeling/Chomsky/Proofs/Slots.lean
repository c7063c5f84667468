import Chomsky.Proofs.Safety
import Mathlib.Data.Set.Function

/-!
# One slot for each cell

The slots of a triangle are its cells counted row by row: each slot belongs to one cell
(`bijOn_slot`), and a cell in a longer row or further to the left comes first (`slot_lt_slot_iff`).
So what is put into a cell is found there and nowhere else, and after any number of sets were put
into cells, in whatever order, a cell holds the last one that was put there, or nothing if none was
(`triangle_faithful`).
-/

namespace Chomsky.Table

/-- Puts sets into cells one after the other. -/
def putAll (t : Table) (puts : List ((Nat × Nat) × Positions)) : Table :=
  puts.foldl (fun t p => t.put p.1.1 p.1.2 p.2) t

/-- Puts sets into cells of the triangle one after the other. -/
def putAll? (t : Table) (puts : List ((Nat × Nat) × Positions)) : Option Table :=
  puts.foldlM (fun t p => t.put? p.1.1 p.1.2 p.2) t

variable {t t' : Table} {span offset : Nat} {s : Positions} {puts : List ((Nat × Nat) × Positions)}

/-! ## The order of the slots -/

theorem slot_lt_slot_iff {i j i' j' : Nat} (h : i + j < t.wordLength)
    (h' : i' + j' < t.wordLength) : t.slot i j < t.slot i' j' ↔ i < i' ∨ i = i' ∧ j < j' := by
  have hs : t.slot i j = rowStart t.wordLength i + j := rfl
  have hs' : t.slot i' j' = rowStart t.wordLength i' + j' := rfl
  rcases Nat.lt_trichotomy i i' with hi | rfl | hi
  · have := rowStart_add_le hi (show i' ≤ t.wordLength by omega)
    omega
  · omega
  · have := rowStart_add_le hi (show i ≤ t.wordLength by omega)
    omega

theorem bijOn_slot (t : Table) : Set.BijOn (fun place : Nat × Nat => t.slot place.1 place.2)
    {place | place.1 + place.2 < t.wordLength}
    {k | k < t.wordLength * (t.wordLength + 1) / 2} := by
  refine ⟨fun _ => slot_lt, fun p hp q hq he => ?_, fun k hk => ?_⟩
  · obtain ⟨hspan, hoffset⟩ := slot_inj hp hq he
    exact Prod.ext hspan hoffset
  · have hmem : k ∈ (coordinates t.wordLength).map fun place => t.slot place.1 place.2 := by
      refine (map_slot_coordinates t.wordLength).symm ▸ List.mem_range.2 hk
    obtain ⟨place, hplace, rfl⟩ := List.mem_map.1 hmem
    exact ⟨place, mem_coordinates.1 hplace, rfl⟩

/-! ## Outside the triangle -/

theorem slot?_of_not_lt (h : ¬ span + offset < t.wordLength) : t.slot? span offset = none := by
  simp only [slot?, hasCell?_eq, hasCell_of_not_lt h, Option.bind_eq_bind, Option.bind_some,
    Bool.false_eq_true, if_false]

theorem slot?_eq_ite (hc : Countable t.wordLength) (span offset : Nat) : t.slot? span offset =
    if span + offset < t.wordLength then some (t.slot span offset) else none := by
  split_ifs with h
  · exact slot?_eq hc h
  · exact slot?_of_not_lt h

theorem put?_eq_some_iff (ht : t.Full) (hc : Countable t.wordLength) :
    t.put? span offset s = some t' ↔
      span + offset < t.wordLength ∧ t.put span offset s = t' := by
  by_cases h : span + offset < t.wordLength
  · rw [put?_eq ht hc h, Option.some_inj, and_iff_right h]
  · have hnone : t.put? span offset s = none := by
      rw [put?, slot?_of_not_lt h]
      rfl
    simp [hnone, h]

/-! ## Many puts -/

theorem putAll_cons (p : (Nat × Nat) × Positions) :
    t.putAll (p :: puts) = (t.put p.1.1 p.1.2 p.2).putAll puts := rfl

theorem putAll_append (earlier later : List ((Nat × Nat) × Positions)) :
    t.putAll (earlier ++ later) = (t.putAll earlier).putAll later :=
  List.foldl_append

@[simp] theorem wordLength_putAll (t : Table) (puts : List ((Nat × Nat) × Positions)) :
    (t.putAll puts).wordLength = t.wordLength := by
  induction puts generalizing t with
  | nil => rfl
  | cons p puts ih => rw [putAll_cons, ih, wordLength_put]

theorem Full.putAll (h : t.Full) (puts : List ((Nat × Nat) × Positions)) :
    (t.putAll puts).Full := by
  induction puts generalizing t with
  | nil => exact h
  | cons p puts ih => exact ih (h.put _ _ _)

/-- Sets can be put into cells as long as all of these are inside the triangle. -/
theorem putAll?_eq_some_iff (ht : t.Full) (hc : Countable t.wordLength) :
    t.putAll? puts = some t' ↔
      (∀ p ∈ puts, p.1.1 + p.1.2 < t.wordLength) ∧ t.putAll puts = t' := by
  induction puts generalizing t with
  | nil => simp [putAll?, putAll]
  | cons p puts ih =>
    have hput : t.putAll? (p :: puts) = (t.put? p.1.1 p.1.2 p.2).bind (·.putAll? puts) :=
      List.foldlM_cons
    have hnext := ih (ht.put p.1.1 p.1.2 p.2) (by simpa using hc)
    rw [wordLength_put] at hnext
    rw [hput, Option.bind_eq_some_iff, List.forall_mem_cons, putAll_cons, and_assoc, ← hnext]
    simp [put?_eq_some_iff ht hc, and_assoc]

theorem get?_putAll_of_forall_ne (ht : t.Full)
    (hin : ∀ p ∈ puts, p.1.1 + p.1.2 < t.wordLength) (hne : ∀ p ∈ puts, p.1 ≠ (span, offset)) :
    (t.putAll puts).get? span offset = t.get? span offset := by
  induction puts generalizing t with
  | nil => rfl
  | cons p puts ih =>
    rw [List.forall_mem_cons] at hin hne
    have hother : ¬ (span = p.1.1 ∧ offset = p.1.2) := fun he =>
      hne.1 (Prod.ext he.1.symm he.2.symm)
    have hput := get?_put ht hin.1 p.2 span offset
    rw [if_neg hother] at hput
    rw [putAll_cons, ih (ht.put _ _ _) (by simpa using hin.2) hne.2, hput]

/-- What is put into a cell stays there while others are put elsewhere. -/
theorem get?_putAll_of_last (ht : t.Full) {earlier later : List ((Nat × Nat) × Positions)}
    (hin : ∀ p ∈ earlier ++ ((span, offset), s) :: later, p.1.1 + p.1.2 < t.wordLength)
    (hne : ∀ p ∈ later, p.1 ≠ (span, offset)) :
    (t.putAll (earlier ++ ((span, offset), s) :: later)).get? span offset = some s := by
  obtain ⟨-, hput, hlater⟩ := List.forall_mem_append.1 hin |>.imp_right List.forall_mem_cons.1
  rw [← wordLength_putAll t earlier] at hput hlater
  have ht := ht.putAll earlier
  rw [putAll_append, putAll_cons,
    get?_putAll_of_forall_ne (ht.put _ _ _) (by simpa using hlater) hne, get?_put ht hput]
  exact if_pos ⟨rfl, rfl⟩

theorem get?_blank {n : Nat} (nonterminals : List Char) (h : span + offset < n) :
    (blank n nonterminals).get? span offset = some (.empty nonterminals.length) := by
  have hslot : (blank n nonterminals).slot span offset < n * (n + 1) / 2 := slot_lt h
  have hget : (blank n nonterminals).get? span offset = _ := if_pos (hasCell_iff.2 h)
  rw [hget, blank, Array.getElem?_replicate]
  exact if_pos hslot

/-- The cells of a triangle over `n` letters and the slots below `n * (n + 1) / 2` belong to each
other one to one, row by row, and no number on the way to a slot is below zero or has more than 64
bits. Sets can be put into a new table one after the other exactly if their places are in the
triangle, and then each cell has the last set that was put there, or the empty set if none was. -/
theorem triangle_faithful {n : Nat} (hn : n * (n + 1) < 2 ^ 64) (nonterminals : List Char) :
    let t := blank n nonterminals
    blank? n nonterminals = some t
      ∧ (∀ span offset, t.slot? span offset =
        if span + offset < n then some (t.slot span offset) else none)
      ∧ Set.BijOn (fun place : Nat × Nat => t.slot place.1 place.2)
        {place | place.1 + place.2 < n} {k | k < n * (n + 1) / 2}
      ∧ (∀ i j i' j', i + j < n → i' + j' < n →
        (t.slot i j < t.slot i' j' ↔ i < i' ∨ i = i' ∧ j < j'))
      ∧ ∀ puts, ((∃ last, t.putAll? puts = some last) ↔ ∀ p ∈ puts, p.1.1 + p.1.2 < n)
        ∧ ∀ last, t.putAll? puts = some last → ∀ span offset, span + offset < n →
          (∀ earlier s later, puts = earlier ++ ((span, offset), s) :: later →
            (∀ p ∈ later, p.1 ≠ (span, offset)) → last.bits? span offset = some s)
          ∧ ((∀ p ∈ puts, p.1 ≠ (span, offset)) →
            last.bits? span offset = some (.empty nonterminals.length)) := by
  intro t
  have hc : Countable t.wordLength := hn
  have ht : t.Full := full_blank n nonterminals
  refine ⟨blank?_eq hn nonterminals, slot?_eq_ite hc, bijOn_slot t,
    fun _ _ _ _ h h' => slot_lt_slot_iff h h', fun puts => ⟨?_, fun last hlast span offset h => ?_⟩⟩
  · simp only [putAll?_eq_some_iff ht hc, exists_and_left, exists_eq', and_true]
    rfl
  · obtain ⟨hin, rfl⟩ := (putAll?_eq_some_iff ht hc).1 hlast
    have hwl := wordLength_putAll t puts
    rw [bits?_eq_get? (hwl ▸ hc) (hwl ▸ h)]
    refine ⟨?_, fun hne => ?_⟩
    · rintro earlier s later rfl hne
      exact get?_putAll_of_last ht hin hne
    · rw [get?_putAll_of_forall_ne ht hin hne, get?_blank nonterminals h]

theorem triangle_faithful_sample :
    let puts : List ((Nat × Nat) × Positions) :=
      [((1, 1), ⟨[false, true]⟩), ((1, 1), ⟨[true, true]⟩), ((0, 2), ⟨[true, false]⟩)]
    3 * (3 + 1) < 2 ^ 64
      ∧ (∀ p ∈ puts, p.1.1 + p.1.2 < 3)
      ∧ ∃ last, (blank 3 ['S', 'A']).putAll? puts = some last
        ∧ last.bits? 1 1 = some ⟨[true, true]⟩ ∧ last.bits? 0 1 = some ⟨[false, false]⟩ := by
  intro puts
  have hn : 3 * (3 + 1) < 2 ^ 64 := by decide
  have hin : ∀ p ∈ puts, p.1.1 + p.1.2 < 3 := by decide
  obtain ⟨-, -, -, -, hputs⟩ := triangle_faithful hn ['S', 'A']
  obtain ⟨hiff, hlast⟩ := hputs puts
  obtain ⟨last, h⟩ := hiff.2 hin
  exact ⟨hn, hin, last, h,
    (hlast last h 1 1 (by decide)).1 [((1, 1), ⟨[false, true]⟩)] _ _ rfl (by decide),
    (hlast last h 0 1 (by decide)).2 (by decide)⟩

end Chomsky.Table
