import Chomsky.Definitions
import Chomsky.Proofs.Delimiters
import Mathlib.Data.List.TakeWhile

/-!
# The text of a production

A text is read as a production at its first equals sign, whatever else it holds: what stands before
the sign must leave one character when the blanks go (`readProduction?_eq_some_iff`). A text without
the sign, or with anything else before it, is refused (`readProduction?_eq_none_iff`).
-/

namespace Chomsky

variable {text : String} {left right : List Char} {lhs : Char} {pieces : List String}

/-- The right-hand sides behind the equals sign. -/
def readPieces (right : List Char) : List String :=
  (right.splitOn '|').map fun piece => String.ofList (trimBlanks piece)

theorem readProduction?_of_not_mem (h : '=' ∉ text.toList) : readProduction? text = none := by
  have hd : text.toList.dropWhile (· ≠ '=') = [] :=
    List.dropWhile_eq_nil_iff.2 fun c hc => by simpa using ne_of_mem_of_not_mem hc h
  simp only [readProduction?, hd]

theorem readProduction?_of_split (ht : text.toList = left ++ '=' :: right) (hl : '=' ∉ left) :
    readProduction? text = match trimBlanks left with
      | [lhs] => some (lhs, readPieces right)
      | _ => none := by
  simp only [readProduction?, ht, takeWhile_append_cons hl, dropWhile_append_cons hl]
  rfl

theorem readProduction?_eq_some_iff : readProduction? text = some (lhs, pieces) ↔
    ∃ left right, text.toList = left ++ '=' :: right ∧ '=' ∉ left ∧ trimBlanks left = [lhs]
      ∧ pieces = readPieces right := by
  refine ⟨fun h => ?_, fun h => ?_⟩
  · by_cases hm : '=' ∈ text.toList
    · obtain ⟨left, right, ht, hl⟩ := List.eq_append_cons_of_mem hm
      rw [readProduction?_of_split ht hl] at h
      split at h
      · rename_i htrim
        cases h
        exact ⟨left, right, ht, hl, htrim, rfl⟩
      · cases h
    · rw [readProduction?_of_not_mem hm] at h
      cases h
  · obtain ⟨left, right, ht, hl, htrim, rfl⟩ := h
    rw [readProduction?_of_split ht hl, htrim]

theorem readProduction?_eq_none_iff : readProduction? text = none ↔ '=' ∉ text.toList
    ∨ ∃ left right, text.toList = left ++ '=' :: right ∧ '=' ∉ left
      ∧ (trimBlanks left).length ≠ 1 := by
  refine ⟨fun h => ?_, fun h => ?_⟩
  · by_cases hm : '=' ∈ text.toList
    · obtain ⟨left, right, ht, hl⟩ := List.eq_append_cons_of_mem hm
      refine .inr ⟨left, right, ht, hl, fun hlen => ?_⟩
      obtain ⟨lhs, htrim⟩ := List.length_eq_one_iff.1 hlen
      rw [readProduction?_of_split ht hl, htrim] at h
      cases h
    · exact .inl hm
  · rcases h with h | ⟨left, right, ht, hl, hlen⟩
    · exact readProduction?_of_not_mem h
    · rw [readProduction?_of_split ht hl]
      split
      · rename_i htrim
        rw [htrim] at hlen
        exact absurd rfl hlen
      · rfl

end Chomsky
