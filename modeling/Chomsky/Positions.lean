/-!
# Sets of positions

A set of nonterminals is kept as one flag for each position in the order of declaration. The number
of flags is the width of the set; inserting and joining keep it.
-/

namespace Chomsky

/-- A set of positions below a width. -/
structure Positions where
  flags : List Bool
deriving DecidableEq

namespace Positions

def width (s : Positions) : Nat := s.flags.length

def empty (width : Nat) : Positions := ⟨List.replicate width false⟩

def contains (s : Positions) (i : Nat) : Bool := s.flags.getD i false

/-- Adds a position; one that is not below the width changes nothing. -/
def insert (s : Positions) (i : Nat) : Positions := ⟨s.flags.set i true⟩

def union (s t : Positions) : Positions := ⟨List.zipWith (· || ·) s.flags t.flags⟩

/-- The positions in the set, in ascending order. -/
def toList (s : Positions) : List Nat :=
  s.flags.zipIdx.filterMap fun (flag, i) => if flag then some i else none

@[simp] theorem width_empty (n : Nat) : (empty n).width = n := by
  simp [width, empty]

@[simp] theorem width_insert (s : Positions) (i : Nat) : (s.insert i).width = s.width := by
  simp [width, insert]

@[simp] theorem width_union (s t : Positions) : (s.union t).width = min s.width t.width := by
  simp [width, union]

@[simp] theorem contains_empty (n i : Nat) : (empty n).contains i = false := by
  simp only [contains, empty, List.getD_eq_getElem?_getD, List.getElem?_replicate]
  split <;> rfl

theorem contains_insert (s : Positions) (i j : Nat) :
    (s.insert i).contains j = ((decide (i = j) && decide (i < s.width)) || s.contains j) := by
  simp only [contains, insert, width, List.getD_eq_getElem?_getD, List.getElem?_set]
  by_cases hij : i = j
  · subst hij
    by_cases hi : i < s.flags.length <;> simp [hi]
  · simp [hij]

theorem contains_union {s t : Positions} (h : s.width = t.width) (i : Nat) :
    (s.union t).contains i = (s.contains i || t.contains i) := by
  simp only [contains, union, List.getD_eq_getElem?_getD, List.getElem?_zipWith]
  by_cases hi : i < s.flags.length
  · have ht : i < t.flags.length := by simp only [width] at h; omega
    simp [hi, ht]
  · have ht : ¬ i < t.flags.length := by simp only [width] at h; omega
    simp [hi, ht]

theorem mem_toList {s : Positions} {i : Nat} : i ∈ s.toList ↔ s.contains i = true := by
  simp only [toList, contains, List.mem_filterMap, Prod.exists, List.mk_mem_zipIdx_iff_getElem?,
    List.getD_eq_getElem?_getD, Option.ite_none_right_eq_some, Option.some.injEq]
  constructor
  · rintro ⟨flag, k, h, rfl, rfl⟩
    simp [h]
  · intro h
    refine ⟨true, i, ?_, rfl, rfl⟩
    cases hs : s.flags[i]? with
    | none => simp [hs] at h
    | some b => simpa [hs] using h

theorem lt_width_of_contains {s : Positions} {i : Nat} (h : s.contains i = true) : i < s.width := by
  simp only [contains, List.getD_eq_getElem?_getD] at h
  rcases Nat.lt_or_ge i s.flags.length with hi | hi
  · exact hi
  · simp [List.getElem?_eq_none hi] at h

end Positions

end Chomsky
