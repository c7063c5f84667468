import Chomsky.Proofs.Agreement
import Chomsky.Proofs.Rebuilding
import Mathlib.Data.List.Perm.Basic

/-!
# Definitions in another order

Definitions mean the same however their letters, their production texts and the pieces within one
text are ordered (`Reordering`). The texts spell the same rules (`Reordering.rules`), and what makes
definitions sound does not depend on any order (`Reordering.sound`). Two grammars that come of it
declare and rewrite the same (`Reordering.alike`), so they answer alike about every word and every
nonterminal has the same height (`grammar_reordered`).
-/

namespace Chomsky

theorem mem_intercalate_of_mem {x s : Char} {p : List Char} (hx : x ∈ p) :
    ∀ {pieces : List (List Char)}, p ∈ pieces → x ∈ [s].intercalate pieces
  | [q], hp => by
    rw [List.mem_singleton.1 hp] at hx
    rwa [List.intercalate_singleton]
  | q :: r :: pieces, hp => by
    rw [List.intercalate_cons_cons]
    rcases List.mem_cons.1 hp with rfl | hp
    · exact List.mem_append_left _ (List.mem_append_left _ hx)
    · exact List.mem_append_right _ (mem_intercalate_of_mem hx hp)

theorem mem_iff_of_splitOn_perm {x s : Char} (h : x ≠ s) {text text' : List Char}
    (hp : (text.splitOn s).Perm (text'.splitOn s)) : x ∈ text ↔ x ∈ text' := by
  have hpieces : ∀ letters : List Char, x ∈ letters ↔ ∃ p ∈ letters.splitOn s, x ∈ p := by
    intro letters
    conv_lhs => rw [← @List.intercalate_splitOn _ letters _ _ s]
    exact ⟨fun hm => (mem_intercalate hm).resolve_left h, fun ⟨p, hp, hm⟩ =>
      mem_intercalate_of_mem hm hp⟩
  rw [hpieces, hpieces]
  exact exists_congr fun p => and_congr_left' hp.mem_iff

/-- Whether a text of a production is another one with its pieces, which bars separate, in another
order: the pieces behind the first equals sign, or all of them where there is no such sign. -/
inductive SamePieces : String → String → Prop
  | behind {left right right' : List Char} (sign : '=' ∉ left)
    (perm : (right.splitOn '|').Perm (right'.splitOn '|')) :
    SamePieces (String.ofList (left ++ '=' :: right)) (String.ofList (left ++ '=' :: right'))
  | signless {text text' : String} (sign : '=' ∉ text.toList)
    (perm : (text.toList.splitOn '|').Perm (text'.toList.splitOn '|')) : SamePieces text text'

/-- Whether definitions are other ones with their letters, their production texts and the pieces of
each text in another order. -/
structure Definitions.Reordering (d d' : Definitions) : Prop where
  terminals : d.terminals.Perm d'.terminals
  nonterminals : d.nonterminals.Perm d'.nonterminals
  start : d.start = d'.start
  productions : ∃ texts, d.productions.Perm texts ∧ List.Forall₂ SamePieces texts d'.productions

/-! ## Texts -/

namespace SamePieces

variable {text text' : String} {texts texts' : List String}

theorem refl (text : String) : SamePieces text text := by
  by_cases hm : '=' ∈ text.toList
  · obtain ⟨left, right, ht, hl⟩ := List.eq_append_cons_of_mem hm
    rw [← String.ofList_toList (s := text), ht]
    exact .behind hl (.refl _)
  · exact .signless hm (.refl _)

theorem symm (h : SamePieces text text') : SamePieces text' text := by
  cases h with
  | behind sign perm => exact .behind sign perm.symm
  | signless sign perm =>
    exact .signless (fun hm => sign ((mem_iff_of_splitOn_perm (by decide) perm).2 hm)) perm.symm

theorem reading (h : SamePieces text text') :
    Option.Rel (fun p p' => p.1 = p'.1 ∧ p.2.Perm p'.2) (readProduction? text)
      (readProduction? text') := by
  cases h with
  | @behind left right right' sign perm =>
    rw [readProduction?_of_split (String.toList_ofList ..) sign,
      readProduction?_of_split (String.toList_ofList ..) sign]
    split
    · exact .some ⟨rfl, perm.map _⟩
    · exact .none
  | signless sign perm =>
    have sign' := mt (mem_iff_of_splitOn_perm (by decide) perm).2 sign
    rw [readProduction?_of_not_mem sign, readProduction?_of_not_mem sign']
    exact .none

theorem readable_iff (h : List.Forall₂ SamePieces texts texts') :
    (∀ text ∈ texts, readProduction? text ≠ none) ↔
      ∀ text ∈ texts', readProduction? text ≠ none := by
  induction h with
  | nil => rfl
  | @cons text text' texts texts' htext _ ih =>
    have hiff : readProduction? text ≠ none ↔ readProduction? text' ≠ none := by
      have hread := htext.reading
      generalize readProduction? text = reading at hread ⊢
      generalize readProduction? text' = reading' at hread ⊢
      cases hread <;> simp
    rw [List.forall_mem_cons, List.forall_mem_cons, ih, hiff]

end SamePieces

namespace Definitions

variable {d d' : Definitions} {texts texts' : List String}

theorem rules_perm_of_samePieces (h : List.Forall₂ SamePieces texts texts') :
    ((texts.filterMap readProduction?).flatMap fun (lhs, pieces) => pieces.map (lhs, ·)).Perm
      ((texts'.filterMap readProduction?).flatMap fun (lhs, pieces) => pieces.map (lhs, ·)) := by
  induction h with
  | nil => rfl
  | @cons text text' texts texts' htext _ ih =>
    have hread := htext.reading
    rcases hp : readProduction? text with _ | ⟨lhs, pieces⟩ <;>
      rcases hp' : readProduction? text' with _ | ⟨lhs', pieces'⟩ <;>
      rw [hp, hp'] at hread <;> cases hread
    · rwa [List.filterMap_cons_none hp, List.filterMap_cons_none hp']
    · rename_i hrel
      obtain ⟨rfl, hperm⟩ := hrel
      rw [List.filterMap_cons_some hp, List.filterMap_cons_some hp', List.flatMap_cons,
        List.flatMap_cons]
      exact (hperm.map _).append ih

namespace Reordering

theorem symm (h : d.Reordering d') : d'.Reordering d := by
  obtain ⟨texts, hperm, hsame⟩ := h.productions
  obtain ⟨texts', hsame', hperm'⟩ := List.perm_comp_forall₂ hperm hsame
  refine ⟨h.terminals.symm, h.nonterminals.symm, h.start.symm, texts', hperm'.symm, ?_⟩
  exact (hsame'.imp fun _ _ => SamePieces.symm).flip

theorem rules (h : d.Reordering d') : d.rules.Perm d'.rules := by
  obtain ⟨texts, hperm, hsame⟩ := h.productions
  exact ((hperm.filterMap _).flatMap_right _).trans (rules_perm_of_samePieces hsame)

theorem readable (h : d.Reordering d') (hd : ∀ text ∈ d.productions, readProduction? text ≠ none) :
    ∀ text ∈ d'.productions, readProduction? text ≠ none := by
  obtain ⟨texts, hperm, hsame⟩ := h.productions
  exact (SamePieces.readable_iff hsame).1 fun text ht => hd text (hperm.mem_iff.2 ht)

theorem isNonterminal_iff (h : d.Reordering d') (c : Char) :
    d.IsNonterminal c ↔ d'.IsNonterminal c :=
  and_congr_left' h.nonterminals.mem_iff

theorem normal_iff (h : d.Reordering d') : ∀ rhs, d.Normal rhs ↔ d'.Normal rhs
  | [] => .rfl
  | [_] => and_congr_left' h.terminals.mem_iff
  | [b, c] => and_congr (h.isNonterminal_iff b) (h.isNonterminal_iff c)
  | _ :: _ :: _ :: _ => .rfl

theorem sound (h : d.Reordering d') (hd : d.Sound) : d'.Sound where
  terminals_nodup := h.terminals.nodup_iff.1 hd.terminals_nodup
  terminal_case c hc := hd.terminal_case c (h.terminals.mem_iff.2 hc)
  nonterminals_nodup := h.nonterminals.nodup_iff.1 hd.nonterminals_nodup
  nonterminal_case c hc := hd.nonterminal_case c (h.nonterminals.mem_iff.2 hc)
  start c hc := (h.isNonterminal_iff c).1 (hd.start c (h.start.trans hc))
  readable := h.readable hd.readable
  rules_nodup := h.rules.nodup_iff.1 hd.rules_nodup
  rules_proper rule hr := by
    obtain ⟨hlhs, hrhs⟩ := hd.rules_proper rule (h.rules.mem_iff.2 hr)
    exact ⟨(h.isNonterminal_iff _).1 hlhs, (h.normal_iff _).1 hrhs⟩

theorem alike (h : d.Reordering d') {g g' : Grammar} (hg : g.Describes d.edits)
    (hg' : g'.Describes d'.edits) : g.Alike g' where
  terminals c := by
    rw [hg.terminals, hg'.terminals, terminals_edits, terminals_edits, h.terminals.mem_iff]
  start := by rw [hg.start, hg'.start, start_edits, start_edits, h.start]
  alternatives c a := by
    rw [mem_alternatives_iff hg, mem_alternatives_iff hg', h.rules.mem_iff]

end Reordering

end Definitions

/-- The order of definitions does not matter. One order is accepted exactly if every other is, and
the grammars answer every word alike, with the same nonterminals in the cells of its tables, and
give every nonterminal the same height. -/
theorem Definitions.grammar_reordered {d d' : Definitions} (h : d.Reordering d') :
    ((∃ g, d.grammar = .ok g) ↔ ∃ g', d'.grammar = .ok g')
      ∧ ∀ g g', d.grammar = .ok g → d'.grammar = .ok g' →
        (∀ word, Grammar.SameAnswer (g.checkWord word) (g'.checkWord word))
          ∧ ∀ c, g.heights.of? c = g'.heights.of? c := by
  refine ⟨?_, fun g g' hg hg' => ?_⟩
  · rw [exists_grammar_iff, exists_grammar_iff]
    exact ⟨h.sound, h.symm.sound⟩
  · obtain ⟨hc, hd⟩ := describes_of_grammar hg
    obtain ⟨hc', hd'⟩ := describes_of_grammar hg'
    have halike := h.alike hd hd'
    exact ⟨halike.sameAnswer hc hc', fun c =>
      (halike.treesAgree c).of?_heights hc.nonterminals_nodup hc'.nonterminals_nodup⟩

/-- The sample's definitions with every order turned around. -/
def reversedDefinitions : Definitions where
  terminals := ['b', 'a']
  nonterminals := ['U', 'B', 'A', 'S']
  start := some 'S'
  productions := ["A=a", "S=SS|AB", "B=BB|b", "U=UU"]

theorem sampleDefinitions_reordering :
    Grammar.sampleDefinitions.Reordering reversedDefinitions where
  terminals := by decide
  nonterminals := by decide
  start := rfl
  productions := by
    have hsign : '=' ∉ ['S'] ∧ '=' ∉ ['B'] := by decide
    have hS : SamePieces "S=AB|SS" "S=SS|AB" :=
      @SamePieces.behind ['S'] "AB|SS".toList "SS|AB".toList hsign.1 (by decide)
    have hB : SamePieces "B=b|BB" "B=BB|b" :=
      @SamePieces.behind ['B'] "b|BB".toList "BB|b".toList hsign.2 (by decide)
    refine ⟨["A=a", "S=AB|SS", "B=b|BB", "U=UU"], by decide, ?_⟩
    exact .cons (.refl _) (.cons hS (.cons hB (.cons (.refl _) .nil)))

theorem grammar_reordered_sample : Grammar.sampleDefinitions.Reordering reversedDefinitions
    ∧ ∃ g g', Grammar.sampleDefinitions.grammar = .ok g ∧ reversedDefinitions.grammar = .ok g'
      ∧ g ≠ g'
      ∧ Grammar.SameAnswer (g.checkWord ['a', 'b', 'b']) (g'.checkWord ['a', 'b', 'b'])
      ∧ g.heights.of? 'S' = g'.heights.of? 'S' := by
  have h := sampleDefinitions_reordering
  have hok : Grammar.sampleDefinitions.grammar.toOption.isSome = true := by decide +kernel
  obtain ⟨hiff, hsame⟩ := Definitions.grammar_reordered h
  rcases hg : Grammar.sampleDefinitions.grammar with failures | g
  · rw [hg] at hok
    cases hok
  · obtain ⟨g', hg'⟩ := hiff.1 ⟨g, hg⟩
    obtain ⟨hwords, hheights⟩ := hsame g g' hg hg'
    have hne : Grammar.sampleDefinitions.grammar.toOption ≠
        reversedDefinitions.grammar.toOption := by decide +kernel
    rw [hg, hg'] at hne
    exact ⟨h, g, g', rfl, hg', fun he => hne (congrArg some he), hwords _, hheights _⟩

end Chomsky
