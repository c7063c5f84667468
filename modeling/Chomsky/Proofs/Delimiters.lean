import Chomsky.Grammar.Description
import Chomsky.Proofs.Alphabet
import Chomsky.Proofs.Trimming

/-!
# Letters and delimiters

The texts about a grammar need no quoting, because nothing that can be declared is blank
(`not_isBlank_of_symbol`) or one of the characters that stand between the letters
(`not_mem_delimiters_of_symbol`). A text is taken apart at the first place where such a character
stands (`append_cons_inj`), or at all of them (`splitOn_lines`).
-/

namespace Chomsky

/-- The characters that the texts of grammars and productions put around letters. -/
def delimiters : List Char := ['\n', '(', ')', ',', ':', '=', '_', '\x7b', '|', '\x7d']

theorem ofChar?_of_mem_delimiters {c : Char} (h : c ∈ delimiters) : Symbol.ofChar? c = none := by
  have hall : (delimiters.all fun c => decide (Symbol.ofChar? c = none)) = true := by decide +kernel
  exact of_decide_eq_true (List.all_eq_true.1 hall c h)

theorem ofChar?_of_isBlank {c : Char} (h : isBlank c = true) : Symbol.ofChar? c = none := by
  have hvalues : ∀ n ∈ blankSet.values, Symbol.ofChar? (Char.ofNat n) = none := by decide +kernel
  rw [← Char.ofNat_toNat c]
  exact hvalues c.toNat (CharacterSet.toNat_mem_values h)

theorem not_mem_delimiters_of_symbol {c : Char} (h : Symbol.ofChar? c ≠ none) : c ∉ delimiters :=
  fun hm => h (ofChar?_of_mem_delimiters hm)

theorem not_isBlank_of_symbol {c : Char} (h : Symbol.ofChar? c ≠ none) : isBlank c = false :=
  Bool.eq_false_iff.2 fun hb => h (ofChar?_of_isBlank hb)

/-- A delimiter does not occur among symbols. -/
theorem not_mem_of_symbols {x : Char} {text : List Char} (h : ∀ c ∈ text, Symbol.ofChar? c ≠ none)
    (hx : x ∈ delimiters) : x ∉ text :=
  fun hm => not_mem_delimiters_of_symbol (h x hm) hx

/-! ## Taking texts apart -/

section Split

variable {x : Char} {u v u' v' : List Char}

theorem takeWhile_append_cons (hu : x ∉ u) : (u ++ x :: v).takeWhile (· ≠ x) = u := by
  rw [List.takeWhile_append_of_pos fun c hc => by simpa using ne_of_mem_of_not_mem hc hu]
  simp

theorem dropWhile_append_cons (hu : x ∉ u) : (u ++ x :: v).dropWhile (· ≠ x) = x :: v := by
  rw [List.dropWhile_append_of_pos fun c hc => by simpa using ne_of_mem_of_not_mem hc hu]
  simp

theorem append_cons_inj (hu : x ∉ u) (hu' : x ∉ u') :
    u ++ x :: v = u' ++ x :: v' ↔ u = u' ∧ v = v' := by
  refine ⟨fun h => ⟨?_, ?_⟩, fun ⟨hl, hr⟩ => by rw [hl, hr]⟩
  · rw [← takeWhile_append_cons (v := v) hu, h, takeWhile_append_cons hu']
  · have hd := dropWhile_append_cons (v := v) hu
    rw [h, dropWhile_append_cons hu'] at hd
    exact (List.cons.inj hd).2.symm

/-- Pieces that each end with the delimiter, and nothing behind the last. -/
theorem splitOn_lines : ∀ {lines : List (List Char)}, (∀ line ∈ lines, x ∉ line) →
    (lines.flatMap (· ++ [x])).splitOn x = lines ++ [[]]
  | [], _ => List.splitOn_nil x
  | line :: lines, h => by
    rw [List.forall_mem_cons] at h
    rw [List.flatMap_cons, List.append_assoc, List.singleton_append,
      List.splitOn_append_cons_self_of_not_mem h.1, splitOn_lines h.2, List.cons_append]

theorem not_mem_of_mem_splitOn : ∀ {text piece : List Char}, piece ∈ text.splitOn x → x ∉ piece
  | [], piece, h => by
    rw [List.splitOn_nil, List.mem_singleton] at h
    exact h ▸ List.not_mem_nil
  | c :: text, piece, h => by
    rw [List.splitOn_cons_eq_if_modifyHead] at h
    split_ifs at h with hc
    · rcases List.mem_cons.1 h with rfl | h
      · exact List.not_mem_nil
      · exact not_mem_of_mem_splitOn h
    · obtain ⟨first, rest, hsplit⟩ := List.exists_cons_of_ne_nil (List.splitOn_ne_nil x text)
      have ih : ∀ piece ∈ first :: rest, x ∉ piece :=
        fun piece hp => not_mem_of_mem_splitOn (hsplit ▸ hp)
      rw [hsplit, List.modifyHead_cons] at h
      rcases List.mem_cons.1 h with rfl | h
      · have hne : x ≠ c := fun he => hc (by simp [he])
        exact List.not_mem_cons_of_ne_of_not_mem hne (ih first List.mem_cons_self)
      · exact ih piece (List.mem_cons_of_mem _ h)

end Split

/-! ## The letters of a grammar -/

namespace Grammar

variable {g : Grammar} {c : Char}

theorem Consistent.symbol_of_mem_terminals (hg : g.Consistent) (h : c ∈ g.terminals) :
    Symbol.ofChar? c ≠ none := by
  simp [hg.terminal_case c h]

theorem Consistent.symbol_of_mem_nonterminals (hg : g.Consistent) (h : c ∈ g.nonterminals) :
    Symbol.ofChar? c ≠ none := by
  simp [hg.nonterminal_case c h]

theorem Consistent.delimiter_not_mem_terminals (hg : g.Consistent) (h : c ∈ delimiters) :
    c ∉ g.terminals :=
  not_mem_of_symbols (fun _ => hg.symbol_of_mem_terminals) h

theorem Consistent.delimiter_not_mem_nonterminals (hg : g.Consistent) (h : c ∈ delimiters) :
    c ∉ g.nonterminals :=
  not_mem_of_symbols (fun _ => hg.symbol_of_mem_nonterminals) h

theorem Consistent.symbol_of_mem_text (hg : g.Consistent) {a : Alternative}
    (ha : a ∈ g.alternatives c) : ∀ x ∈ a.text.toList, Symbol.ofChar? x ≠ none := by
  have hd := hg.declares c a ha
  intro x hx
  cases a with
  | letter t =>
    obtain rfl : x = t := by simpa [Alternative.text] using hx
    exact hg.symbol_of_mem_terminals hd
  | pair b d =>
    have hx : x = b ∨ x = d := by simpa [Alternative.text] using hx
    rcases hx with rfl | rfl
    · exact hg.symbol_of_mem_nonterminals hd.1
    · exact hg.symbol_of_mem_nonterminals hd.2

end Grammar

end Chomsky
