import Chomsky.Table.Filling
import Mathlib.Algebra.Group.Nat.Even
import Mathlib.Data.Nat.Choose.Basic

/-!
# The triangle of cells

The rows of a table lie one behind the other, each one cell shorter than the row before
(`rowStart_succ`), so no two cells share a slot (`slot_inj`) and every slot is inside the array
(`slot_lt`). Hence a cell holds what was put there last, and putting something into one cell changes
no other (`get?_put`). The slots of the cells, row by row, are all slots there are
(`map_slot_coordinates`), so the array is known from the cells (`Full.toList_cells`).
-/

namespace Chomsky

theorem mem_coordinates {n span offset : Nat} :
    (span, offset) ∈ coordinates n ↔ span + offset < n := by
  simp only [coordinates, List.mem_flatMap, List.mem_range, List.mem_map, Prod.mk.injEq]
  refine ⟨fun h => ?_, fun h => ?_⟩
  · obtain ⟨_, h1, _, h2, rfl, rfl⟩ := h
    omega
  · exact ⟨span, by omega, offset, by omega, rfl, rfl⟩

namespace Table

/-- Where the row of a span begins, in a triangle over `n` letters. -/
def rowStart (n span : Nat) : Nat := span * n - span * (span - 1) / 2

/-- Whether the array has a slot for every cell, and no more. -/
def Full (t : Table) : Prop := t.cells.size = t.wordLength * (t.wordLength + 1) / 2

theorem rowStart_succ {n span : Nat} (h : span ≤ n) :
    rowStart n (span + 1) = rowStart n span + (n - span) := by
  have ht : (span + 1) * (span + 1 - 1) / 2 = span * (span - 1) / 2 + span :=
    Nat.triangle_succ span
  have hle : span * (span - 1) / 2 ≤ span * n :=
    (Nat.div_le_self _ _).trans (Nat.mul_le_mul_left _ (by omega))
  unfold rowStart
  rw [ht, Nat.succ_mul]
  omega

theorem rowStart_self (n : Nat) : rowStart n n = n * (n + 1) / 2 := by
  have ht : (n + 1) * (n + 1 - 1) / 2 = n * (n - 1) / 2 + n := Nat.triangle_succ n
  have he : n * (n - 1) / 2 * 2 = n * (n - 1) :=
    Nat.div_two_mul_two_of_even (Nat.even_mul_pred_self n)
  have hm : n * (n - 1) + n = n * n := by
    cases n with
    | zero => rfl
    | succ n => rw [Nat.add_sub_cancel, Nat.mul_succ (n + 1) n]
  rw [Nat.add_sub_cancel, Nat.mul_comm] at ht
  unfold rowStart
  omega

theorem rowStart_add_le {n span later : Nat} (h : span < later) (hn : later ≤ n) :
    rowStart n span + (n - span) ≤ rowStart n later := by
  induction later, h using Nat.le_induction with
  | base => rw [Nat.succ_eq_add_one, rowStart_succ (by omega)]
  | succ later h ih =>
    rw [rowStart_succ (by omega)]
    have := ih (by omega)
    omega

theorem flatMap_rows {n rows : Nat} (h : rows ≤ n) :
    ((List.range rows).flatMap fun span =>
      (List.range (n - span)).map fun offset => rowStart n span + offset) =
      List.range (rowStart n rows) := by
  induction rows with
  | zero => simp [rowStart]
  | succ rows ih =>
    rw [List.range_succ, List.flatMap_append, ih (by omega), rowStart_succ (by omega),
      List.range_add, List.flatMap_singleton]

theorem map_slot_coordinates (n : Nat) :
    (coordinates n).map (fun place => rowStart n place.1 + place.2) =
      List.range (n * (n + 1) / 2) := by
  rw [← rowStart_self, ← flatMap_rows le_rfl, coordinates, List.map_flatMap]
  simp only [List.map_map]
  rfl

theorem slot_lt {t : Table} {span offset : Nat} (h : span + offset < t.wordLength) :
    t.slot span offset < t.wordLength * (t.wordLength + 1) / 2 := by
  have := rowStart_add_le (show span < t.wordLength by omega) le_rfl
  rw [rowStart_self] at this
  show rowStart t.wordLength span + offset < _
  omega

theorem slot_inj {t : Table} {i j i' j' : Nat} (h : i + j < t.wordLength)
    (h' : i' + j' < t.wordLength) (he : t.slot i j = t.slot i' j') : i = i' ∧ j = j' := by
  have hs : rowStart t.wordLength i + j = rowStart t.wordLength i' + j' := he
  rcases Nat.lt_trichotomy i i' with hi | rfl | hi
  · have := rowStart_add_le hi (show i' ≤ t.wordLength by omega)
    omega
  · exact ⟨rfl, by omega⟩
  · have := rowStart_add_le hi (show i ≤ t.wordLength by omega)
    omega

/-! ## Reading and writing cells -/

theorem full_blank (n : Nat) (nonterminals : List Char) : (blank n nonterminals).Full := by
  simp [Full, blank]

theorem Full.put {t : Table} (h : t.Full) (span offset : Nat) (s : Positions) :
    (t.put span offset s).Full := by
  simpa [Full] using h

theorem get?_of_not_lt {t : Table} {span offset : Nat} (h : ¬ span + offset < t.wordLength) :
    t.get? span offset = none := by
  rw [← hasCell_iff] at h
  simp [get?, h]

theorem cell_of_not_lt {t : Table} {span offset : Nat} (h : ¬ span + offset < t.wordLength) :
    t.cell span offset = [] := by
  rw [cell, get?_of_not_lt h]

theorem contains_of_not_lt {t : Table} {span offset : Nat} (h : ¬ span + offset < t.wordLength)
    (c : Char) : t.contains span offset c = false := by
  rw [contains, get?_of_not_lt h]

theorem get?_put {t : Table} (ht : t.Full) {span offset : Nat} (h : span + offset < t.wordLength)
    (s : Positions) (i j : Nat) :
    (t.put span offset s).get? i j = if i = span ∧ j = offset then some s else t.get? i j := by
  by_cases hij : i + j < t.wordLength
  · have hs : t.slot span offset < t.cells.size := ht ▸ slot_lt h
    have hput : t.put span offset s = { t with cells := t.cells.setIfInBounds _ s } :=
      if_pos (hasCell_iff.2 h)
    have hget : (t.put span offset s).get? i j =
        (t.cells.setIfInBounds (t.slot span offset) s)[t.slot i j]? := by
      rw [hput]
      exact if_pos (hasCell_iff.2 hij)
    rw [hget, Array.getElem?_setIfInBounds]
    by_cases he : i = span ∧ j = offset
    · obtain ⟨rfl, rfl⟩ := he
      simp [hs]
    · have hne : t.slot span offset ≠ t.slot i j := by
        intro hslot
        obtain ⟨rfl, rfl⟩ := slot_inj h hij hslot
        exact he ⟨rfl, rfl⟩
      rw [if_neg hne, if_neg he]
      exact (if_pos (hasCell_iff.2 hij)).symm
  · rw [get?_of_not_lt hij, get?_of_not_lt (by simpa using hij), if_neg (by omega)]

theorem get_put {t : Table} (ht : t.Full) {span offset : Nat} (h : span + offset < t.wordLength)
    (s : Positions) (i j : Nat) :
    (t.put span offset s).get i j = if i = span ∧ j = offset then s else t.get i j := by
  unfold get
  rw [get?_put ht h, nonterminals_put]
  split_ifs <;> rfl

theorem Full.toList_cells {t : Table} (h : t.Full) :
    t.cells.toList = (coordinates t.wordLength).map fun place => t.get place.1 place.2 := by
  let default := Positions.empty t.nonterminals.length
  calc t.cells.toList
      = (List.range t.cells.size).map fun i => t.cells[i]?.getD default := by
        refine List.ext_getElem (by simp) fun i hi _ => ?_
        have hi : i < t.cells.size := by simpa using hi
        simp [hi]
    _ = ((coordinates t.wordLength).map fun place => t.slot place.1 place.2).map
          fun i => t.cells[i]?.getD default := by
        rw [h, ← map_slot_coordinates]
        rfl
    _ = (coordinates t.wordLength).map fun place => t.get place.1 place.2 := by
        rw [List.map_map]
        refine List.map_congr_left fun place hp => ?_
        have hget : t.get? place.1 place.2 = t.cells[t.slot place.1 place.2]? :=
          if_pos (hasCell_iff.2 (mem_coordinates.1 hp))
        rw [get, hget]
        rfl

theorem get?_eq_some_get {t : Table} (ht : t.Full) {span offset : Nat}
    (h : span + offset < t.wordLength) : t.get? span offset = some (t.get span offset) := by
  have hs : t.slot span offset < t.cells.size := ht ▸ slot_lt h
  have hget : t.get? span offset = t.cells[t.slot span offset]? := if_pos (hasCell_iff.2 h)
  simp [get, hget, hs]

end Table

end Chomsky
