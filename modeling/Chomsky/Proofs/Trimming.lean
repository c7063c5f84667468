import Chomsky.Text.Blank
import Mathlib.Data.List.DropRight

/-!
# Trimming

What trimming leaves of a text is the one part of it that has nothing but blanks around it and no
blank at its ends (`trimBlanks_eq_iff`).
-/

namespace Chomsky

/-- Whether neither the first nor the last character is blank. -/
structure Trimmed (text : List Char) : Prop where
  first : ∀ c ∈ text.head?, isBlank c = false
  last : ∀ c ∈ text.getLast?, isBlank c = false

/-- Whether a text is another one with blanks before and behind it. -/
def Padded (core text : List Char) : Prop :=
  ∃ before behind, (∀ c ∈ before, isBlank c = true) ∧ (∀ c ∈ behind, isBlank c = true)
    ∧ text = before ++ core ++ behind

variable {text core before behind : List Char} {x : Char}

theorem padded_trimBlanks (text : List Char) : Padded (trimBlanks text) text := by
  refine ⟨text.takeWhile isBlank, (text.dropWhile isBlank).rtakeWhile isBlank,
    fun _ => List.mem_takeWhile_imp, fun _ => List.mem_rtakeWhile_imp, ?_⟩
  have hright : trimBlanks text ++ (text.dropWhile isBlank).rtakeWhile isBlank =
      text.dropWhile isBlank := List.rdropWhile_append_rtakeWhile
  rw [List.append_assoc, hright, List.takeWhile_append_dropWhile]

theorem not_isBlank_of_head?_dropWhile {c : Char}
    (h : c ∈ (text.dropWhile isBlank).head?) : isBlank c = false := by
  have hhead := List.head?_dropWhile_not isBlank text
  rw [Option.mem_def.1 h] at hhead
  exact hhead

theorem trimmed_trimBlanks (text : List Char) : Trimmed (trimBlanks text) where
  first c h := by
    -- what trimming the end leaves still begins as before
    obtain ⟨behind, hbehind⟩ : trimBlanks text <+: text.dropWhile isBlank :=
      List.rdropWhile_prefix isBlank _
    have hhead : c ∈ (text.dropWhile isBlank).head? := by
      rw [← hbehind, List.head?_append, Option.mem_def.1 h]
      rfl
    exact not_isBlank_of_head?_dropWhile hhead
  last c h := by
    rw [trimBlanks, List.getLast?_reverse] at h
    exact not_isBlank_of_head?_dropWhile h

theorem dropWhile_append_of_blank (hb : ∀ c ∈ before, isBlank c = true)
    (hc : ∀ c ∈ core.head?, isBlank c = false) : (before ++ core).dropWhile isBlank = core := by
  rw [List.dropWhile_append_of_pos hb]
  rcases core with _ | ⟨c, core⟩
  · rfl
  · exact List.dropWhile_cons_of_neg (by simp [hc c rfl])

theorem Padded.trimBlanks_eq (h : Padded core text) (hc : Trimmed core) :
    trimBlanks text = core := by
  obtain ⟨before, behind, hb, hb', rfl⟩ := h
  rcases core with _ | ⟨c, core⟩
  · -- nothing but blanks
    have hall : ∀ c ∈ before ++ [] ++ behind, isBlank c = true := by
      simpa [or_imp, forall_and] using ⟨hb, hb'⟩
    rw [trimBlanks, List.dropWhile_eq_nil_iff.2 hall]
    rfl
  · have hleft : (before ++ (c :: core ++ behind)).dropWhile isBlank = c :: core ++ behind :=
      dropWhile_append_of_blank hb fun d hd => hc.first d hd
    have hright : (behind.reverse ++ (c :: core).reverse).dropWhile isBlank =
        (c :: core).reverse := by
      refine dropWhile_append_of_blank (by simpa using hb') fun d hd => hc.last d ?_
      rwa [List.head?_reverse] at hd
    rw [trimBlanks, List.append_assoc, hleft, List.reverse_append, hright, List.reverse_reverse]

theorem trimBlanks_eq_iff : trimBlanks text = core ↔ Trimmed core ∧ Padded core text := by
  refine ⟨?_, fun ⟨hc, h⟩ => h.trimBlanks_eq hc⟩
  rintro rfl
  exact ⟨trimmed_trimBlanks text, padded_trimBlanks text⟩

theorem Padded.mem_iff (h : Padded core text) (hx : isBlank x = false) : x ∈ text ↔ x ∈ core := by
  obtain ⟨before, behind, hb, hb', rfl⟩ := h
  have hbefore : x ∉ before := fun hm => by simp [hb x hm] at hx
  have hbehind : x ∉ behind := fun hm => by simp [hb' x hm] at hx
  simp [hbefore, hbehind]

theorem trimmed_singleton : Trimmed [x] ↔ isBlank x = false :=
  ⟨fun h => h.first x rfl, fun h => ⟨by simpa using h, by simpa using h⟩⟩

theorem trimBlanks_of_not_isBlank (h : ∀ c ∈ text, isBlank c = false) : trimBlanks text = text :=
  trimBlanks_eq_iff.2 ⟨⟨fun c hc => h c (List.mem_of_mem_head? hc),
    fun c hc => h c (List.mem_of_mem_getLast? hc)⟩, [], [], by simp⟩

end Chomsky
