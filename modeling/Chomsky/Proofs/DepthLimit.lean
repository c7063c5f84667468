import Chomsky.Proofs.Alphabet
import Chomsky.Proofs.Growth
import Chomsky.Proofs.Heights

/-!
# The depth limit

A grown tree takes lowest alternatives at the depth limit and below it (`Grows.lowFrom`), and every
derivation tree that does so grows from some source (`exists_grows`). Where only lowest alternatives
are taken the tree is as low as its nonterminal allows (`minHeight_of_lowFrom`), so the levels a
grown tree may have never run out (`height_le`).
-/

namespace Chomsky

/-- All subtrees with the depths of their roots, the tree itself first. -/
def Tree.subtreesFrom (depth : Nat) : Tree → List (Nat × Tree)
  | .leaf c t => [(depth, .leaf c t)]
  | .node c left right => (depth, .node c left right)
    :: (left.subtreesFrom (depth + 1) ++ right.subtreesFrom (depth + 1))

namespace Grammar

/-- Whether an alternative of `c` begins a tree of the least height of `c`. -/
def Lowest (g : Grammar) (c : Char) (a : Alternative) : Prop :=
  ∃ n, g.MinHeight c n ∧ g.AlternativeHeight a n

/-- Whether all nodes at depth `maxDepth` and below take lowest alternatives, in a tree whose root
is at the given depth. -/
def LowFrom (g : Grammar) (maxDepth depth : Nat) (t : Tree) : Prop :=
  ∀ p ∈ t.subtreesFrom depth, maxDepth ≤ p.1 → g.Lowest p.2.symbol p.2.alternative

variable {g : Grammar} {maxDepth depth free : Nat} {c x : Char} {a : Alternative}
  {t left right : Tree}

theorem lowFrom_leaf : g.LowFrom maxDepth depth (.leaf c x) ↔
    (maxDepth ≤ depth → g.Lowest c (.letter x)) := by
  simp [LowFrom, Tree.subtreesFrom, Tree.symbol, Tree.alternative]

theorem lowFrom_node : g.LowFrom maxDepth depth (.node c left right) ↔
    (maxDepth ≤ depth → g.Lowest c (.pair left.symbol right.symbol))
      ∧ g.LowFrom maxDepth (depth + 1) left ∧ g.LowFrom maxDepth (depth + 1) right := by
  simp only [LowFrom, Tree.subtreesFrom, List.forall_mem_cons, List.forall_mem_append]
  rfl

/-! ## Heights below the limit -/

theorem minHeight_of_lowFrom (h : g.LowFrom maxDepth depth t) (hd : maxDepth ≤ depth) :
    g.MinHeight t.symbol t.height := by
  induction t generalizing depth with
  | leaf c x =>
    obtain ⟨n, hn, rfl⟩ := lowFrom_leaf.1 h hd
    exact hn
  | node c left right ihl ihr =>
    obtain ⟨hroot, hl, hr⟩ := lowFrom_node.1 h
    obtain ⟨n, hn, l, r, hml, hmr, rfl⟩ := hroot hd
    have hle : maxDepth ≤ depth + 1 := by omega
    rw [hml.unique (ihl hl hle), hmr.unique (ihr hr hle)] at hn
    exact hn

theorem height_le (hg : g.nonterminals.Nodup) (h : g.LowFrom maxDepth depth t) :
    t.height ≤ maxDepth - depth + g.heights.largest := by
  induction t generalizing depth with
  | leaf c x =>
    by_cases hd : maxDepth ≤ depth
    · have := Heights.le_largest ((of?_heights_iff hg).2 (minHeight_of_lowFrom h hd))
      omega
    · simp only [Tree.height]
      omega
  | node c left right ihl ihr =>
    by_cases hd : maxDepth ≤ depth
    · have := Heights.le_largest ((of?_heights_iff hg).2 (minHeight_of_lowFrom h hd))
      omega
    · obtain ⟨-, hl, hr⟩ := lowFrom_node.1 h
      have hll := ihl hl
      have hrl := ihr hr
      simp only [Tree.height]
      omega

/-- A limit that no node reaches restricts nothing. -/
theorem lowFrom_of_height_le (h : depth + t.height ≤ maxDepth) : g.LowFrom maxDepth depth t := by
  induction t generalizing depth with
  | leaf c x =>
    simp only [Tree.height] at h
    exact lowFrom_leaf.2 fun hd => by omega
  | node c left right ihl ihr =>
    simp only [Tree.height] at h
    exact lowFrom_node.2 ⟨fun hd => by omega, ihl (by omega), ihr (by omega)⟩

/-! ## What is open -/

theorem openTo_heights_iff (hg : g.nonterminals.Nodup) : g.OpenTo g.heights free c a ↔
    a ∈ g.alternatives c ∧ ∃ height n, g.MinHeight c height ∧ g.AlternativeHeight a n
      ∧ (0 < free ∨ n = height) := by
  simp only [OpenTo, of?_heights_iff hg, ofAlternative?_heights_iff hg]

theorem lowest_of_openTo (hg : g.nonterminals.Nodup) (h : g.OpenTo g.heights 0 c a) :
    g.Lowest c a := by
  obtain ⟨-, height, n, hc, ha, hfree⟩ := (openTo_heights_iff hg).1 h
  rcases hfree with hfree | rfl
  · omega
  · exact ⟨n, hc, ha⟩

theorem exists_alternativeHeight (ht : t.Of g) : ∃ n, g.AlternativeHeight t.alternative n := by
  cases t with
  | leaf c x => exact ⟨1, rfl⟩
  | node c left right =>
    obtain ⟨l, -, hl⟩ := exists_minHeight ht.2.1
    obtain ⟨r, -, hr⟩ := exists_minHeight ht.2.2
    exact ⟨_, l, r, hl, hr, rfl⟩

theorem openTo_root (hg : g.nonterminals.Nodup) (ht : t.Of g)
    (hlow : free = 0 → g.Lowest t.symbol t.alternative) :
    g.OpenTo g.heights free t.symbol t.alternative := by
  rw [openTo_heights_iff hg]
  by_cases hfree : free = 0
  · obtain ⟨n, hc, ha⟩ := hlow hfree
    exact ⟨ht.alternative_mem, n, n, hc, ha, .inr rfl⟩
  · obtain ⟨height, -, hc⟩ := exists_minHeight ht
    obtain ⟨n, ha⟩ := exists_alternativeHeight ht
    exact ⟨ht.alternative_mem, height, n, hc, ha, .inl (by omega)⟩

/-! ## Grown trees -/

variable {s s' : Source}

theorem Grows.lowFrom (hg : g.nonterminals.Nodup) (h : g.Grows g.heights free c s t s')
    (hfree : free = maxDepth - depth) : g.LowFrom maxDepth depth t := by
  induction h generalizing depth with
  | leaf pick =>
    refine lowFrom_leaf.2 fun hd => ?_
    -- no level is free at the limit or below
    have hzero : maxDepth - depth = 0 := by omega
    exact lowest_of_openTo hg (hzero ▸ hfree ▸ pick.openTo)
  | node pick hl hr ihl ihr =>
    refine lowFrom_node.2 ⟨fun hd => ?_, ihl (by omega), ihr (by omega)⟩
    have hzero : maxDepth - depth = 0 := by omega
    rw [hl.of.2, hr.of.2]
    exact lowest_of_openTo hg (hzero ▸ hfree ▸ pick.openTo)

/-- A tree that takes lowest alternatives from the limit on grows if the source offers, node by
node and the left part first, the words for its alternatives. -/
theorem exists_grows (hg : g.Consistent) (ht : t.Of g) (hlow : g.LowFrom maxDepth depth t) :
    ∃ words, ∀ s : Source, s.Offers words →
      g.Grows g.heights (maxDepth - depth) t.symbol s t (s.skip words.length) := by
  induction t generalizing depth with
  | leaf c x =>
    have hopen : g.OpenTo g.heights (maxDepth - depth) c (.letter x) :=
      openTo_root hg.nonterminals_nodup ht fun hd => lowFrom_leaf.1 hlow (by omega)
    obtain ⟨word, hpick⟩ := exists_picks (hg.length_alternatives_lt c) hopen
    exact ⟨[word], fun s hs => .leaf (hpick s hs)⟩
  | node c left right ihl ihr =>
    obtain ⟨hroot, hl, hr⟩ := lowFrom_node.1 hlow
    have hopen : g.OpenTo g.heights (maxDepth - depth) c (.pair left.symbol right.symbol) :=
      openTo_root hg.nonterminals_nodup ht fun hd => hroot (by omega)
    obtain ⟨word, hpick⟩ := exists_picks (hg.length_alternatives_lt c) hopen
    obtain ⟨u, hu⟩ := ihl ht.2.1 hl
    obtain ⟨v, hv⟩ := ihr ht.2.2 hr
    -- the node takes a word, the left part what comes next and the right part the rest
    refine ⟨[word] ++ (u ++ v), fun s hs => ?_⟩
    have hrest := hs.right
    have hgl := hu _ hrest.left
    have hgr := hv _ hrest.right
    rw [← Nat.sub_sub] at hgl hgr
    have hgrows := Grows.node (hpick s hs.left) hgl hgr
    simp only [Source.skip_skip] at hgrows
    rwa [List.length_append, List.length_append, ← Nat.add_assoc]

end Grammar

end Chomsky
