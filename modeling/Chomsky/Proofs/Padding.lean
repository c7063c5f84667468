import Chomsky.Proofs.Failures
import Mathlib.Data.List.Forall2

/-!
# Writing productions

A production is written as its left-hand side, an equals sign, and its right-hand sides with bars
between them; blanks may stand around each of these parts (`Written`). No blank is a bar or an
equals sign, so the parts are found again and trimmed (`readLeft_iff`, `readPiece_iff`). Hence a
text is read as a production exactly if it is written so, and every other text is reported as
malformed (`readProduction?_iff_written`).
-/

namespace Chomsky

/-- What a production must be to be read as it was written: with blanks around its parts, each can
still be told from the blanks and from the characters between the parts. -/
structure Writable (lhs : Char) (alternatives : List String) : Prop where
  sign : lhs ≠ '='
  blank : isBlank lhs = false
  nonempty : alternatives ≠ []
  bar : ∀ rhs ∈ alternatives, '|' ∉ rhs.toList
  trimmed : ∀ rhs ∈ alternatives, Trimmed rhs.toList

/-- Whether a text is a production with blanks around its parts. -/
def Written (lhs : Char) (alternatives : List String) (text : String) : Prop :=
  ∃ left pieces, Padded [lhs] left
    ∧ List.Forall₂ (fun rhs piece => Padded rhs.toList piece) alternatives pieces
    ∧ text.toList = left ++ '=' :: ['|'].intercalate pieces

/-! ## Reading the parts -/

section Pieces

variable {right piece left : List Char} {lhs : Char} {rhs : String} {alternatives : List String}

/-- One piece is read as a right-hand side exactly if it is that side with blanks around it. -/
theorem readPiece_iff : '|' ∉ piece ∧ String.ofList (trimBlanks piece) = rhs ↔
    ('|' ∉ rhs.toList ∧ Trimmed rhs.toList) ∧ Padded rhs.toList piece := by
  have hbar : isBlank '|' = false := by decide
  rw [← String.toList_inj, String.toList_ofList, trimBlanks_eq_iff, and_assoc]
  refine ⟨fun ⟨hm, ht, hp⟩ => ⟨?_, ht, hp⟩, fun ⟨hm, ht, hp⟩ => ⟨?_, ht, hp⟩⟩
  · rwa [← hp.mem_iff hbar]
  · rwa [hp.mem_iff hbar]

theorem readPieces_eq_iff : readPieces right = alternatives ↔
    (alternatives ≠ [] ∧ ∀ rhs ∈ alternatives, '|' ∉ rhs.toList ∧ Trimmed rhs.toList)
      ∧ ∃ pieces, List.Forall₂ (fun rhs piece => Padded rhs.toList piece) alternatives pieces
        ∧ right = ['|'].intercalate pieces := by
  constructor
  · rintro rfl
    have hread : ∀ piece ∈ right.splitOn '|', _ := fun piece hp =>
      readPiece_iff.1 ⟨not_mem_of_mem_splitOn hp, rfl⟩
    refine ⟨⟨by simp [readPieces], ?_⟩, right.splitOn '|', ?_, (List.intercalate_splitOn _).symm⟩
    · exact List.forall_mem_map.2 fun piece hp => (hread piece hp).1
    · exact List.forall₂_map_left_iff.2 (List.forall₂_same.2 fun piece hp => (hread piece hp).2)
  · rintro ⟨⟨hne, hrhs⟩, pieces, hpieces, rfl⟩
    have hread : List.Forall₂
        (fun piece rhs => '|' ∉ piece ∧ String.ofList (trimBlanks piece) = rhs)
        pieces alternatives :=
      (((List.forall₂_and_left _ _).2 ⟨hrhs, hpieces⟩).imp fun _ _ => readPiece_iff.2).flip
    obtain ⟨hbar, hread⟩ := (List.forall₂_and_left _ _).1 hread
    have hpne : pieces ≠ [] := by
      rintro rfl
      exact hne (List.forall₂_nil_right_iff.1 hpieces)
    rw [readPieces, List.splitOn_intercalate '|' hbar hpne]
    rw [← List.forall₂_eq_eq_eq]
    exact List.forall₂_map_left_iff.2 hread

theorem readLeft_iff : '=' ∉ left ∧ trimBlanks left = [lhs] ↔
    (lhs ≠ '=' ∧ isBlank lhs = false) ∧ Padded [lhs] left := by
  have hsign : isBlank '=' = false := by decide
  rw [trimBlanks_eq_iff, trimmed_singleton, and_assoc]
  refine ⟨fun ⟨hm, hb, hp⟩ => ⟨?_, hb, hp⟩, fun ⟨hm, hb, hp⟩ => ⟨?_, hb, hp⟩⟩
  · simpa [hp.mem_iff hsign, eq_comm] using hm
  · simpa [hp.mem_iff hsign, eq_comm] using hm

end Pieces

theorem readProduction?_eq_some_iff_written {text : String} {lhs : Char}
    {alternatives : List String} : readProduction? text = some (lhs, alternatives) ↔
      Writable lhs alternatives ∧ Written lhs alternatives text := by
  rw [readProduction?_eq_some_iff]
  constructor
  · rintro ⟨left, right, htext, hm, htrim, halternatives⟩
    obtain ⟨⟨hsign, hblank⟩, hleft⟩ := readLeft_iff.1 ⟨hm, htrim⟩
    obtain ⟨⟨hne, hrhs⟩, pieces, hpieces, rfl⟩ := readPieces_eq_iff.1 halternatives.symm
    exact ⟨⟨hsign, hblank, hne, fun rhs h => (hrhs rhs h).1, fun rhs h => (hrhs rhs h).2⟩,
      left, pieces, hleft, hpieces, htext⟩
  · rintro ⟨⟨hsign, hblank, hne, hbar, htrimmed⟩, left, pieces, hleft, hpieces, htext⟩
    obtain ⟨hm, htrim⟩ := readLeft_iff.2 ⟨⟨hsign, hblank⟩, hleft⟩
    have hread := readPieces_eq_iff.2
      ⟨⟨hne, fun rhs h => ⟨hbar rhs h, htrimmed rhs h⟩⟩, pieces, hpieces, rfl⟩
    exact ⟨left, _, htext, hm, htrim, hread.symm⟩

theorem readProduction?_eq_none_iff_not_written {text : String} : readProduction? text = none ↔
    ¬ ∃ lhs alternatives, Writable lhs alternatives ∧ Written lhs alternatives text := by
  simp only [Option.eq_none_iff_forall_ne_some, Prod.forall, ne_eq,
    readProduction?_eq_some_iff_written, not_exists]

/-! ## Malformed texts -/

namespace Grammar

variable {place : Location} {text : String}

/-- A text is found malformed because it is requested as such, never by what the grammar holds. -/
theorem malformed_mem_feed_iff {requests : List (Located (Except DefinitionError Edit))}
    {g : Grammar} : ⟨place, .malformed text⟩ ∈ (g.feed requests).2 ↔
      ⟨place, .error (.malformed text)⟩ ∈ requests := by
  induction requests generalizing g with
  | nil => exact iff_of_false List.not_mem_nil List.not_mem_nil
  | cons request rest ih =>
    have hserve : Located.mk place (.malformed text) ∈
        ((g.serve request.value).2.map (Located.mk request.location)).toList ↔
          ⟨place, .error (.malformed text)⟩ = request := by
      obtain ⟨location, reason | e⟩ := request
      · simp [serve]
      · rcases hcheck : g.check e with reason | change
        · simp [serve_of_error hcheck]
        · simp [serve_of_ok hcheck]
    rw [feed_cons, List.mem_append, List.mem_cons, hserve, ih]

end Grammar

namespace Definitions

variable {d : Definitions} {text : String}

theorem malformed_mem_productionEdits_iff {text' : String} :
    .error (.malformed text) ∈ productionEdits text' ↔
      text' = text ∧ readProduction? text' = none := by
  unfold productionEdits
  rcases readProduction? text' with _ | ⟨lhs, pieces⟩ <;> simp [eq_comm]

theorem malformed_mem_requests_iff {i : Nat} :
    ⟨⟨"--production", i + 1⟩, .error (.malformed text)⟩ ∈ d.requests ↔
      d.productions[i]? = some text ∧ readProduction? text = none := by
  simp only [requests, List.mem_append, List.mem_map, List.mem_flatMap, Prod.exists,
    List.mem_zipIdx_iff_le_and_getElem?_sub, Located.mk.injEq, Location.mk.injEq, reduceCtorEq,
    and_false, exists_false, false_or]
  constructor
  · rintro ⟨text', k, ⟨hk, htext⟩, request, hrequest, ⟨-, rfl⟩, rfl⟩
    obtain ⟨rfl, hread⟩ := malformed_mem_productionEdits_iff.1 hrequest
    exact ⟨htext, hread⟩
  · rintro ⟨htext, hread⟩
    exact ⟨text, i + 1, ⟨by omega, htext⟩, _,
      malformed_mem_productionEdits_iff.2 ⟨rfl, hread⟩, ⟨trivial, rfl⟩, rfl⟩

theorem mem_failures_grammar_iff {failure : Located DefinitionError} :
    (∃ failures, d.grammar = .error failures ∧ failure ∈ failures) ↔
      failure ∈ (Grammar.empty.feed d.requests).2 := by
  unfold grammar
  rcases Grammar.empty.feed d.requests with ⟨g, _ | ⟨first, rest⟩⟩ <;> simp

end Definitions

/-- A text is read as a production exactly if it joins that production's parts, whatever blanks
stand around them; which productions can be written so is said without reading. Among definitions
every other text is reported as malformed with its place, and none of these texts is. -/
theorem readProduction?_iff_written (text : String) :
    (∀ lhs alternatives, readProduction? text = some (lhs, alternatives) ↔
      Writable lhs alternatives ∧ Written lhs alternatives text)
      ∧ ∀ (d : Definitions) (i : Nat),
        (∃ failures, d.grammar = .error failures
          ∧ ⟨⟨"--production", i + 1⟩, .malformed text⟩ ∈ failures) ↔
        d.productions[i]? = some text
          ∧ ¬ ∃ lhs alternatives, Writable lhs alternatives ∧ Written lhs alternatives text := by
  refine ⟨fun _ _ => readProduction?_eq_some_iff_written, fun d i => ?_⟩
  rw [Definitions.mem_failures_grammar_iff, Grammar.malformed_mem_feed_iff,
    Definitions.malformed_mem_requests_iff, readProduction?_eq_none_iff_not_written]

-- the first sign counts, a bar may stand before it, and a piece may be blank
example : readProduction? " |\u00a0== |a b| " = some ('|', ["=", "a b", ""]) := by decide +kernel

end Chomsky
