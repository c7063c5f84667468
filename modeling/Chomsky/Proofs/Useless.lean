import Chomsky.Proofs.Agreement
import Chomsky.Proofs.Progress

/-!
# Useless productions

A production is useless to `c` if `c` does not lead to its left-hand side, or if it is a pair with a
part that derives no word. No tree below `c` takes such a production. So a grammar that gains none
but these keeps its trees below every nonterminal that `c` leads to (`UselessExtension.treesAgree`),
and a run from `c` always chooses among the alternatives it chose among before, in their old order
(`UselessExtension.openAlternatives_eq`). What is generated from `c`, and from which numbers, is
settled by these choices, and the height and the words of `c` by its trees
(`generateFrom_useless`).
-/

namespace Chomsky

namespace Generation

/-- A computation is known by its successes and its failures. -/
theorem run_ext {α : Type} {x y : Generation α} {s : Source}
    (hy : ∀ a s', Yields x s a s' ↔ Yields y s a s')
    (hf : ∀ e s', Fails x s e s' ↔ Fails y s e s') : x.run s = y.run s := by
  refine Option.ext fun p => ?_
  rcases p with ⟨e | a, s'⟩
  · exact hf e s'
  · exact hy a s'

end Generation

theorem openAlternatives_append (H : Heights) (free height : Nat) (old added : List Alternative) :
    openAlternatives H free height (old ++ added) =
      openAlternatives H free height old ++ openAlternatives H free height added :=
  List.filter_append old added

theorem openAlternatives_congr {H H' : Heights} {alternatives : List Alternative}
    (h : ∀ a ∈ alternatives, H.ofAlternative? a = H'.ofAlternative? a) (free height : Nat) :
    openAlternatives H free height alternatives = openAlternatives H' free height alternatives :=
  List.filter_congr fun a ha => by rw [h a ha]

/-- The nonterminals that an alternative puts in the place of its own. -/
def Alternative.parts : Alternative → List Char
  | .letter _ => []
  | .pair b d => [b, d]

namespace Grammar

open Generation Relation

/-- Whether `x` is a part of some alternative of `c`. -/
def Names (g : Grammar) (c x : Char) : Prop := ∃ a ∈ g.alternatives c, x ∈ a.parts

/-- Whether `x` can come up below `c`, or is `c` itself. -/
def Leads (g : Grammar) : Char → Char → Prop := ReflTransGen g.Names

/-- Whether no tree below `c` can take this alternative of `lhs`: `c` does not lead to `lhs`, or the
alternative is a pair with a part that derives no word. -/
def Useless (g : Grammar) (c lhs : Char) (a : Alternative) : Prop :=
  ¬ g.Leads c lhs
    ∨ ∃ b d, a = .pair b d ∧ ((¬ ∃ word, g.Derives b word) ∨ ¬ ∃ word, g.Derives d word)

/-- Whether `g'` has the alternatives of `g`, and behind them only such as are useless to `c`. -/
structure UselessExtension (c : Char) (g g' : Grammar) : Prop where
  old : g.Consistent
  new : g'.Consistent
  alternatives : ∀ x, ∃ added, g'.alternatives x = g.alternatives x ++ added
    ∧ ∀ a ∈ added, g'.Useless c x a

variable {g g' : Grammar} {H H' : Heights} {c x : Char} {a : Alternative} {t : Tree} {s s' : Source}
  {free : Nat} {word : Word} {edits : List Edit}

/-! ## What a nonterminal leads to -/

theorem mem_form_iff : .nonterminal x ∈ a.form ↔ x ∈ a.parts := by
  cases a <;> simp [Alternative.form, Alternative.parts]

theorem exists_form_of_leads (h : g.Leads c x) :
    ∃ form, ReflTransGen g.Step [.nonterminal c] form ∧ .nonterminal x ∈ form := by
  induction h with
  | refl => exact ⟨_, .refl, List.mem_singleton_self _⟩
  | tail _ hnames ih =>
    obtain ⟨form, hform, hmem⟩ := ih
    obtain ⟨before, after, rfl⟩ := List.append_of_mem hmem
    obtain ⟨a, ha, hx⟩ := hnames
    refine ⟨_, hform.tail (.rewrite before after ha), ?_⟩
    rw [List.append_assoc, List.mem_append, List.mem_append, mem_form_iff]
    exact .inr (.inl hx)

theorem leads_of_rewrites {form : Form} (h : ReflTransGen g.Step [.nonterminal c] form)
    (hx : .nonterminal x ∈ form) : g.Leads c x := by
  induction h generalizing x with
  | refl =>
    cases List.mem_singleton.1 hx
    exact .refl
  | tail _ hstep ih =>
    obtain @⟨before, after, y, a, ha⟩ := hstep
    rw [List.append_assoc, List.mem_append, List.mem_append] at hx
    rcases hx with hx | hx | hx
    · exact ih (List.mem_append_left _ hx)
    · have hy : g.Leads c y := ih (List.mem_append_right _ List.mem_cons_self)
      exact hy.tail ⟨a, ha, mem_form_iff.1 hx⟩
    · exact ih (List.mem_append_right _ (List.mem_cons_of_mem _ hx))

/-- A nonterminal leads to another exactly if it can be rewritten to a form with that one in it. -/
theorem leads_iff_rewrites : g.Leads c x ↔
    ∃ form, ReflTransGen g.Step [.nonterminal c] form ∧ .nonterminal x ∈ form :=
  ⟨exists_form_of_leads, fun ⟨_, h, hx⟩ => leads_of_rewrites h hx⟩

/-- Whether a property passes from the left-hand side of a production to its parts. -/
def PassesDown (g : Grammar) (p : Char → Prop) : Prop :=
  ∀ y, p y → ∀ a ∈ g.alternatives y, ∀ x ∈ a.parts, p x

theorem Leads.passesDown (g : Grammar) (c : Char) : g.PassesDown (g.Leads c) :=
  fun _ hy a ha _ hx => hy.tail ⟨a, ha, hx⟩

theorem PassesDown.leads {p : Char → Prop} (hp : g.PassesDown p) (h : g.Leads c x) (hc : p c) :
    p x := by
  induction h with
  | refl => exact hc
  | tail _ hnames ih =>
    obtain ⟨a, ha, hx⟩ := hnames
    exact hp _ ih a ha _ hx

theorem PassesDown.pair {p : Char → Prop} {b d : Char} (hp : g.PassesDown p) (hx : p x)
    (ha : .pair b d ∈ g.alternatives x) : p b ∧ p d :=
  ⟨hp x hx _ ha b (by simp [Alternative.parts]), hp x hx _ ha d (by simp [Alternative.parts])⟩

/-! ## Trees -/

namespace UselessExtension

theorem subset (h : UselessExtension c g g') (x : Char) : g.alternatives x ⊆ g'.alternatives x := by
  obtain ⟨added, hx, -⟩ := h.alternatives x
  exact hx ▸ List.subset_append_left _ _

/-- Where `c` leads, an alternative was there before or has a part that derives no word. -/
theorem mem_or_unproductive (h : UselessExtension c g g') (hx : g'.Leads c x)
    (ha : a ∈ g'.alternatives x) : a ∈ g.alternatives x
      ∨ ∃ b d, a = .pair b d ∧ ((¬ ∃ word, g'.Derives b word) ∨ ¬ ∃ word, g'.Derives d word) := by
  obtain ⟨added, heq, huseless⟩ := h.alternatives x
  rcases List.mem_append.1 (heq ▸ ha) with ha | ha
  · exact .inl ha
  · exact .inr ((huseless a ha).resolve_left (not_not.2 hx))

theorem of_old (h : UselessExtension c g g') :
    ∀ {t : Tree}, g'.Leads c t.symbol → t.Of g' → t.Of g
  | .leaf x y, hx, ht => by
    rcases h.mem_or_unproductive hx ht with hold | ⟨b, d, ha, -⟩
    · exact hold
    · cases ha
  | .node x left right, hx, ht => by
    have hparts := (Leads.passesDown g' c).pair hx ht.1
    rcases h.mem_or_unproductive hx ht.1 with hold | ⟨b, d, ha, hnone⟩
    · exact ⟨hold, h.of_old hparts.1 ht.2.1, h.of_old hparts.2 ht.2.2⟩
    · cases ha
      have hleft : ∃ word, g'.Derives left.symbol word := ⟨_, left, ht.2.1, rfl, rfl⟩
      have hright : ∃ word, g'.Derives right.symbol word := ⟨_, right, ht.2.2, rfl, rfl⟩
      exact hnone.elim (absurd hleft) (absurd hright)

theorem treesAgree (h : UselessExtension c g g') (hx : g'.Leads c x) : g'.TreesAgree g x := by
  rintro t rfl
  exact ⟨h.of_old hx, fun ht => ht.mono h.subset⟩

/-! ## Choices -/

theorem of?_eq (h : UselessExtension c g g') (hx : g'.Leads c x) :
    g'.heights.of? x = g.heights.of? x :=
  (h.treesAgree hx).of?_heights h.new.nonterminals_nodup h.old.nonterminals_nodup

theorem ofAlternative?_eq (h : UselessExtension c g g') (hx : g'.Leads c x)
    (ha : a ∈ g'.alternatives x) : g'.heights.ofAlternative? a = g.heights.ofAlternative? a := by
  cases a with
  | letter t => rfl
  | pair b d =>
    obtain ⟨hb, hd⟩ := (Leads.passesDown g' c).pair hx ha
    exact (h.treesAgree hb).ofAlternative?_heights h.new.nonterminals_nodup
      h.old.nonterminals_nodup (h.treesAgree hd)

/-- A call that a run from `c` comes to is open to the same alternatives in the same order. -/
theorem openAlternatives_eq (h : UselessExtension c g g') (hx : g'.Leads c x) (free height : Nat) :
    openAlternatives g'.heights free height (g'.alternatives x) =
      openAlternatives g.heights free height (g.alternatives x) := by
  obtain ⟨added, heq, huseless⟩ := h.alternatives x
  -- a part that derives no word has no height, so no added alternative is ever open
  have hnone : openAlternatives g'.heights free height added = [] := by
    refine List.eq_nil_iff_forall_not_mem.2 fun a ha => ?_
    obtain ⟨ha, n, hn, -⟩ := mem_openAlternatives_iff.1 ha
    obtain ⟨b, d, rfl, hbd⟩ := (huseless a ha).resolve_left (not_not.2 hx)
    obtain ⟨l, r, hl, hr, -⟩ := Heights.ofAlternative?_pair_eq_some.1 hn
    rw [exists_word_iff h.new.nonterminals_nodup, exists_word_iff h.new.nonterminals_nodup] at hbd
    exact hbd.elim (absurd ⟨l, hl⟩) (absurd ⟨r, hr⟩)
  rw [heq, openAlternatives_append, hnone, List.append_nil]
  exact openAlternatives_congr (fun a ha => h.ofAlternative?_eq hx (h.subset x ha)) free height

theorem picks_iff (h : UselessExtension c g g') (hx : g'.Leads c x) :
    g'.Picks g'.heights free x s a s' ↔ g.Picks g.heights free x s a s' := by
  simp only [Picks, h.of?_eq hx, h.openAlternatives_eq hx]

end UselessExtension

/-! ## Runs -/

/-- A tree grows in another grammar too if the picks of the nonterminals it can come to are open
there as well. -/
theorem Grows.transfer {p : Char → Prop} (hp : g.PassesDown p)
    (hpick : ∀ y free s a s', p y → g.Picks H free y s a s' → g'.Picks H' free y s a s')
    (h : g.Grows H free c s t s') (hc : p c) : g'.Grows H' free c s t s' := by
  induction h with
  | leaf pick => exact .leaf (hpick _ _ _ _ _ hc pick)
  | node pick _ _ ihl ihr =>
    obtain ⟨hb, hd⟩ := hp.pair hc pick.openTo.1
    exact .node (hpick _ _ _ _ _ hc pick) (ihl hb) (ihr hd)

namespace UselessExtension

theorem grows_iff (h : UselessExtension c g g') :
    g'.Grows g'.heights free c s t s' ↔ g.Grows g.heights free c s t s' := by
  have hc : g'.Leads c c := .refl
  refine ⟨fun hgrows => ?_, fun hgrows => ?_⟩
  · exact hgrows.transfer (Leads.passesDown g' c) (fun _ _ _ _ _ hy => (h.picks_iff hy).1) hc
  · have hdown : g.PassesDown (g'.Leads c) := fun y hy a ha =>
      Leads.passesDown g' c y hy a (h.subset y ha)
    exact hgrows.transfer hdown (fun _ _ _ _ _ hy => (h.picks_iff hy).2) hc

theorem run_generateFrom (h : UselessExtension c g g') (maxDepth : Nat) (s : Source) :
    (g'.generateFrom c maxDepth).run s = (g.generateFrom c maxDepth).run s := by
  refine run_ext (fun word s' => ?_) fun e s' => ?_
  · simp only [yields_generateFrom_iff h.new.nonterminals_nodup,
      yields_generateFrom_iff h.old.nonterminals_nodup, h.grows_iff]
  · simp only [fails_generateFrom_iff h.new.nonterminals_nodup,
      fails_generateFrom_iff h.old.nonterminals_nodup, (h.treesAgree .refl).derives_iff]

end UselessExtension

/-! ## Runs of edits -/

/-- What can be asked about stays so as long as nothing is cleared. -/
theorem Consistent.checkQuery_run (hg : g.Consistent) (h : .clear ∉ edits)
    (hq : ∃ start, g.checkQuery word = .ok start) :
    ∃ start, (g.run edits).1.checkQuery word = .ok start := by
  induction g, edits using run_induction with
  | nil g => exact hq
  | refused hc ih =>
    rw [run_cons_of_error hc]
    exact ih hg (List.not_mem_of_not_mem_cons h) hq
  | @accepted g e change rest hc ih =>
    rw [run_cons_of_ok hc]
    have ha := admits_of_check hc
    have hclear := ne_cleared_of_check hc (List.ne_of_not_mem_cons h).symm
    refine ih (hg.commit ha) (List.not_mem_of_not_mem_cons h) ?_
    obtain ⟨start, hq⟩ := hq
    obtain ⟨ht, hp, hs, hw⟩ := checkQuery_eq_ok_iff.1 hq
    obtain ⟨x, a, hx⟩ := hg.hasProductions_iff.1 hp
    refine ⟨change.edit.start?.getD start, checkQuery_eq_ok_iff.2 ⟨?_, ?_, ?_, fun y hy => ?_⟩⟩
    · rw [terminals_commit g hclear]
      exact List.append_ne_nil_of_left_ne_nil ht _
    · refine (hg.commit ha).hasProductions_iff.2 ⟨x, a, ?_⟩
      rw [alternatives_commit ha hclear]
      exact List.mem_append_left _ hx
    · rw [start_commit g hclear, hs]
      cases change.edit.start? <;> rfl
    · rw [terminals_commit g hclear]
      exact List.mem_append_left _ (hw y hy)

/-- Productions that are useless to `c` change nothing for it. Whatever numbers are drawn and
whatever the depth limit is, generation from `c` comes to the same word or the same failure and
leaves the source the same; `c` keeps its height, or has none in both; and the table of a word lists
`c` for the whole word after the edits exactly if it did before. -/
theorem generateFrom_useless (hg : g.Reachable) (hk : .clear ∉ edits)
    (hu : ∀ lhs a, .ok (.productionAdded lhs a) ∈ (g.run edits).2 →
      (g.run edits).1.Useless c lhs a) :
    let g' := (g.run edits).1
    (∀ maxDepth s, (g'.generateFrom c maxDepth).run s = (g.generateFrom c maxDepth).run s)
      ∧ g'.heights.of? c = g.heights.of? c
      ∧ (∀ word, (g'.table word).derivesWord c = (g.table word).derivesWord c)
      ∧ ∀ word t, g.derivationTable word = .ok t →
        ∃ t', g'.derivationTable word = .ok t' ∧ t'.derivesWord c = t.derivesWord c := by
  intro g'
  have hold := hg.consistent
  have h : UselessExtension c g g' := by
    refine ⟨hold, hold.run edits, fun x => ⟨_, alternatives_run x hk, fun a ha => hu x a ?_⟩⟩
    obtain ⟨answer, hanswer, hadded⟩ := List.mem_filterMap.1 ha
    obtain ⟨change, hchange, hadded⟩ := Option.bind_eq_some_iff.1 hadded
    cases answer with
    | error reason => cases hchange
    | ok answered =>
      cases hchange
      rwa [Change.alternative?_eq_some_iff.1 hadded] at hanswer
  have hwords : ∀ word, (g'.table word).derivesWord c = (g.table word).derivesWord c :=
    (h.treesAgree .refl).derivesWord_table h.new h.old
  refine ⟨h.run_generateFrom, h.of?_eq .refl, hwords, fun word t ht => ?_⟩
  obtain ⟨hq, rfl⟩ := derivationTable_eq_ok_iff.1 ht
  exact ⟨_, derivationTable_eq_ok_iff.2 ⟨hold.checkQuery_run hk hq, rfl⟩, hwords word⟩

/-- Edits that are of no use to `S`: it does not lead to `V`, and `U` derives no word. -/
def uselessEdits : List Edit :=
  [.addTerminal 'c', .addNonterminal 'V', .addProduction 'V' "SS", .addProduction 'V' "c",
    .addProduction 'S' "UA"]

theorem useless_of_mem_uselessEdits {lhs : Char}
    (h : .ok (.productionAdded lhs a) ∈ (sample.run uselessEdits).2) :
    (sample.run uselessEdits).1.Useless 'S' lhs a := by
  have hn := (reachable_sample.consistent.run uselessEdits).nonterminals_nodup
  have hanswers : (sample.run uselessEdits).2 =
      [.ok (.terminalAdded 'c'), .ok (.nonterminalAdded 'V'),
      .ok (.productionAdded 'V' (.pair 'S' 'S')), .ok (.productionAdded 'V' (.letter 'c')),
      .ok (.productionAdded 'S' (.pair 'U' 'A'))] := by decide +kernel
  have hparts : ['S', 'A', 'B', 'U'].all (fun y => ((sample.run uselessEdits).1.alternatives y).all
      fun a => a.parts.all (['S', 'A', 'B', 'U'].contains ·)) = true := by decide +kernel
  have hdown : (sample.run uselessEdits).1.PassesDown (· ∈ ['S', 'A', 'B', 'U']) := by
    simpa only [PassesDown, List.all_eq_true, List.contains_iff_mem] using hparts
  have hV : ¬ (sample.run uselessEdits).1.Leads 'S' 'V' := fun h =>
    absurd (hdown.leads h (by decide)) (by decide)
  have hU : (sample.run uselessEdits).1.heights.of? 'U' = none := by decide +kernel
  rw [hanswers] at h
  simp only [List.mem_cons, Except.ok.injEq, Change.productionAdded.injEq, reduceCtorEq, false_or,
    List.not_mem_nil, or_false] at h
  rcases h with ⟨rfl, -⟩ | ⟨rfl, -⟩ | ⟨rfl, rfl⟩
  · exact .inl hV
  · exact .inl hV
  · refine .inr ⟨_, _, rfl, .inl ?_⟩
    rw [exists_word_iff hn, hU]
    simp

theorem generateFrom_useless_sample : sample.Reachable ∧ .clear ∉ uselessEdits
    ∧ ((sample.run uselessEdits).1.generateFrom 'S' 3).run (.ofList [7]) =
      (sample.generateFrom 'S' 3).run (.ofList [7])
    ∧ (sample.run uselessEdits).1.alternatives 'S' ≠ sample.alternatives 'S' := by
  have hk : .clear ∉ uselessEdits := by decide
  have hsame := generateFrom_useless (c := 'S') reachable_sample hk
    fun _ _ => useless_of_mem_uselessEdits
  exact ⟨reachable_sample, hk, hsame.1 3 (.ofList [7]), by decide +kernel⟩

end Grammar

end Chomsky
