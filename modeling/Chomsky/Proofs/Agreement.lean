import Chomsky.Proofs.Heights
import Chomsky.Proofs.Membership
import Chomsky.Proofs.RuleMap

/-!
# Grammars with the same trees

What a nonterminal derives, how low its trees can be and in which cells of a table it is depends on
the trees below it only. So two grammars that have the same trees below a nonterminal (`TreesAgree`)
agree in all of that, however they order their letters and alternatives and whatever else they hold.
If they only order the same things differently (`Alike`), they agree in every answer about a word
(`Alike.sameAnswer`).
-/

namespace Chomsky

theorem Tree.Of.mono {g g' : Grammar} (h : ∀ c, g.alternatives c ⊆ g'.alternatives c) :
    ∀ {t : Tree}, t.Of g → t.Of g'
  | .leaf c _, ht => h c ht
  | .node c _ _, ht => ⟨h c ht.1, ht.2.1.mono h, ht.2.2.mono h⟩

namespace Grammar

/-- Whether both grammars have the same trees below `c`. -/
def TreesAgree (g g' : Grammar) (c : Char) : Prop :=
  ∀ t : Tree, t.symbol = c → (t.Of g ↔ t.Of g')

variable {g g' : Grammar} {c b d : Char} {word : Word} {n : Nat}

theorem TreesAgree.derives_iff (h : g.TreesAgree g' c) :
    g.Derives c word ↔ g'.Derives c word := by
  refine exists_congr fun t => ⟨fun ⟨ht, hc, hw⟩ => ?_, fun ⟨ht, hc, hw⟩ => ?_⟩
  · exact ⟨(h t hc).1 ht, hc, hw⟩
  · exact ⟨(h t hc).2 ht, hc, hw⟩

theorem TreesAgree.minHeight_iff (h : g.TreesAgree g' c) :
    g.MinHeight c n ↔ g'.MinHeight c n := by
  have hset : {m | ∃ t : Tree, t.Of g ∧ t.symbol = c ∧ t.height = m} =
      {m | ∃ t : Tree, t.Of g' ∧ t.symbol = c ∧ t.height = m} := by
    ext m
    refine exists_congr fun t => ⟨fun ⟨ht, hc, hm⟩ => ?_, fun ⟨ht, hc, hm⟩ => ?_⟩
    · exact ⟨(h t hc).1 ht, hc, hm⟩
    · exact ⟨(h t hc).2 ht, hc, hm⟩
  simp only [MinHeight, hset]

theorem TreesAgree.of?_heights (hg : g.nonterminals.Nodup) (hg' : g'.nonterminals.Nodup)
    (h : g.TreesAgree g' c) : g.heights.of? c = g'.heights.of? c := by
  refine Option.ext fun n => ?_
  rw [of?_heights_iff hg, of?_heights_iff hg', h.minHeight_iff]

theorem TreesAgree.ofAlternative?_heights (hg : g.nonterminals.Nodup)
    (hg' : g'.nonterminals.Nodup) (hb : g.TreesAgree g' b) (hd : g.TreesAgree g' d) :
    g.heights.ofAlternative? (.pair b d) = g'.heights.ofAlternative? (.pair b d) := by
  simp only [Heights.ofAlternative?, hb.of?_heights hg hg', hd.of?_heights hg hg']

theorem TreesAgree.derivesWord_table (hg : g.Consistent) (hg' : g'.Consistent)
    (h : g.TreesAgree g' c) (word : Word) :
    (g.table word).derivesWord c = (g'.table word).derivesWord c := by
  rw [Bool.eq_iff_iff, hg.derivesWord_table, hg'.derivesWord_table, h.derives_iff]

theorem TreesAgree.mem_cell_iff (hg : g.Consistent) (hg' : g'.Consistent) (h : g.TreesAgree g' c)
    (word : Word) (span offset : Nat) :
    c ∈ (g.table word).cell span offset ↔ c ∈ (g'.table word).cell span offset := by
  rw [hg.mem_cell_table_iff, hg'.mem_cell_table_iff, h.derives_iff]

/-! ## The same in another order -/

/-- Whether two grammars declare and rewrite the same, in whatever order. -/
structure Alike (g g' : Grammar) : Prop where
  terminals : ∀ c, c ∈ g.terminals ↔ c ∈ g'.terminals
  start : g.start = g'.start
  alternatives : ∀ c a, a ∈ g.alternatives c ↔ a ∈ g'.alternatives c

/-- Whether two answers about a word are the same: the same reason why there is none, or the same
verdict and tables that list the same nonterminals in every cell. -/
def SameAnswer : Except QueryError (Logged (Bool × Table)) →
    Except QueryError (Logged (Bool × Table)) → Prop
  | .error e, .error e' => e = e'
  | .ok ⟨(derived, t), _⟩, .ok ⟨(derived', t'), _⟩ =>
    derived = derived' ∧ ∀ span offset c, c ∈ t.cell span offset ↔ c ∈ t'.cell span offset
  | _, _ => False

theorem Alike.treesAgree (h : g.Alike g') (c : Char) : g.TreesAgree g' c := fun _ _ =>
  ⟨fun ht => ht.mono fun c _ => (h.alternatives c _).1,
    fun ht => ht.mono fun c _ => (h.alternatives c _).2⟩

theorem Alike.checkQuery (hg : g.Consistent) (hg' : g'.Consistent) (h : g.Alike g') (word : Word) :
    g.checkQuery word = g'.checkQuery word := by
  have ht : g.terminals.isEmpty = g'.terminals.isEmpty := by
    rw [Bool.eq_iff_iff, List.isEmpty_iff, List.isEmpty_iff, List.eq_nil_iff_forall_not_mem,
      List.eq_nil_iff_forall_not_mem]
    simp only [h.terminals]
  have hp : g.hasProductions = g'.hasProductions := by
    rw [Bool.eq_iff_iff, hg.hasProductions_iff, hg'.hasProductions_iff]
    simp only [h.alternatives]
  simp only [Grammar.checkQuery, ht, hp, h.start, h.terminals]

theorem Alike.sameAnswer (hg : g.Consistent) (hg' : g'.Consistent) (h : g.Alike g')
    (word : Word) : SameAnswer (g.checkWord word) (g'.checkWord word) := by
  have hq := h.checkQuery hg hg' word
  rcases hstart : g.checkQuery word with e | start
  · rw [checkWord_of_error hstart, checkWord_of_error (hq ▸ hstart)]
    exact rfl
  · rw [checkWord_of_ok hstart, checkWord_of_ok (hq ▸ hstart)]
    exact ⟨(h.treesAgree start).derivesWord_table hg hg' word, fun span offset c =>
      (h.treesAgree c).mem_cell_iff hg hg' word span offset⟩

end Grammar

end Chomsky
