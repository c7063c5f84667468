import Chomsky.Heights
import Chomsky.Proofs.Derivation
import Chomsky.Proofs.Reachable
import Mathlib.Order.ConditionallyCompleteLattice.Basic
import Mathlib.Order.Lattice.Nat

/-!
# Heights are minimal

The heights found by sweeping are the heights of the lowest trees (`of?_heights_iff`). Every height
that is set is the height of some tree (`Realised`), since it is offered by a production whose parts
have trees already. In the other direction a sweep reaches one level further: if all trees of height
at most `k` are accounted for before it, all of height at most `k + 1` are after it
(`Covers.sweep`), although heights change while it runs. As many sweeps as there are nonterminals
are enough, because the least heights leave no gap: below a lowest tree of some height, more than
one, hangs a lowest tree of the height before (`MinHeight.pred`).
-/

namespace Chomsky

/-! ## Least heights -/

namespace Grammar

/-- Whether `c` has trees, and the lowest have this height. -/
def MinHeight (g : Grammar) (c : Char) (n : Nat) : Prop :=
  IsLeast {h | ∃ t : Tree, t.Of g ∧ t.symbol = c ∧ t.height = h} n

/-- Whether the lowest trees that begin with an alternative have this height. -/
def AlternativeHeight (g : Grammar) : Alternative → Nat → Prop
  | .letter _, n => n = 1
  | .pair b d, n => ∃ l r, g.MinHeight b l ∧ g.MinHeight d r ∧ n = 1 + max l r

variable {g : Grammar} {c : Char} {n m : Nat}

theorem MinHeight.le (h : g.MinHeight c n) {t : Tree} (ht : t.Of g) (hc : t.symbol = c) :
    n ≤ t.height :=
  h.2 ⟨t, ht, hc, rfl⟩

theorem exists_minHeight {t : Tree} (ht : t.Of g) : ∃ n ≤ t.height, g.MinHeight t.symbol n := by
  have hne : {h | ∃ u : Tree, u.Of g ∧ u.symbol = t.symbol ∧ u.height = h}.Nonempty :=
    ⟨t.height, t, ht, rfl, rfl⟩
  have hleast : g.MinHeight t.symbol (sInf _) := ⟨Nat.sInf_mem hne, fun _ h => Nat.sInf_le h⟩
  exact ⟨_, hleast.le ht rfl, hleast⟩

theorem MinHeight.pred (h : g.MinHeight c (n + 1)) (hn : 0 < n) : ∃ b, g.MinHeight b n := by
  obtain ⟨⟨t, ht, rfl, hh⟩, hle⟩ := h
  cases t with
  | leaf c t =>
    simp only [Tree.height] at hh
    omega
  | node c left right =>
    obtain ⟨l, hl, hml⟩ := exists_minHeight ht.2.1
    obtain ⟨r, hr, hmr⟩ := exists_minHeight ht.2.2
    obtain ⟨left', hl', hls, hlh⟩ := hml.1
    obtain ⟨right', hr', hrs, hrh⟩ := hmr.1
    have hlow : n + 1 ≤ 1 + max l r :=
      hle ⟨.node c left' right', ⟨hls ▸ hrs ▸ ht.1, hl', hr'⟩, rfl, by
        rw [Tree.height, hlh, hrh]⟩
    simp only [Tree.height] at hh
    have hor : l = n ∨ r = n := by omega
    rcases hor with rfl | rfl
    · exact ⟨_, hml⟩
    · exact ⟨_, hmr⟩

theorem MinHeight.exists_of_le (h : g.MinHeight c n) {k : Nat} (hk : 0 < k) (hkn : k ≤ n) :
    ∃ b, g.MinHeight b k := by
  induction n generalizing c with
  | zero => omega
  | succ n ih =>
    rcases Nat.lt_or_eq_of_le hkn with hlt | rfl
    · obtain ⟨b, hb⟩ := h.pred (by omega)
      exact ih hb (by omega)
    · exact ⟨c, h⟩

theorem MinHeight.le_length (h : g.MinHeight c n) : n ≤ g.nonterminals.length := by
  let μ : Char → Nat := fun c => sInf {h | ∃ t : Tree, t.Of g ∧ t.symbol = c ∧ t.height = h}
  -- all heights from one to `n` are least heights, and no two of one nonterminal
  have hsub : List.range' 1 n ⊆ g.nonterminals.map μ := by
    intro k hk
    rw [List.mem_range'_1] at hk
    obtain ⟨b, hb⟩ := h.exists_of_le (show 0 < k by omega) (by omega)
    obtain ⟨t, ht, rfl, -⟩ := hb.1
    exact List.mem_map.2 ⟨_, mem_nonterminals_of_mem_alternatives ht.alternative_mem, hb.csInf_eq⟩
  have := List.Nodup.length_le_of_subset List.nodup_range' hsub
  simpa using this

end Grammar

/-! ## One improvement -/

namespace Heights

/-- Whether every height found so far is still there, or a lower one. -/
def NoHigher (H H' : Heights) : Prop :=
  ∀ c h, H.of? c = some h → ∃ h' ≤ h, H'.of? c = some h'

/-- Whether every height is the height of some tree. -/
def Realised (g : Grammar) (H : Heights) : Prop :=
  ∀ c h, H.of? c = some h → ∃ t : Tree, t.Of g ∧ t.symbol = c ∧ t.height = h

/-- Whether all trees of height at most `k` are accounted for. -/
def Covers (g : Grammar) (k : Nat) (H : Heights) : Prop :=
  ∀ t : Tree, t.Of g → t.height ≤ k → ∃ h ≤ t.height, H.of? t.symbol = some h

variable {g : Grammar} {H H' H'' : Heights} {a : Alternative} {k : Nat}

theorem NoHigher.refl (H : Heights) : NoHigher H H := fun _ h hc => ⟨h, le_rfl, hc⟩

theorem NoHigher.trans (h : NoHigher H H') (h' : NoHigher H' H'') : NoHigher H H'' := by
  intro c n hc
  obtain ⟨n', hn, hc'⟩ := h c n hc
  obtain ⟨n'', hn', hc''⟩ := h' c n' hc'
  exact ⟨n'', hn'.trans hn, hc''⟩

theorem ofAlternative?_pair_eq_some {b d : Char} {n : Nat} :
    H.ofAlternative? (.pair b d) = some n ↔
      ∃ l r, H.of? b = some l ∧ H.of? d = some r ∧ n = 1 + max l r := by
  simp only [ofAlternative?]
  cases hb : H.of? b <;> cases hd : H.of? d <;> simp [eq_comm]

theorem NoHigher.ofAlternative? (h : NoHigher H H') {n : Nat} (ha : H.ofAlternative? a = some n) :
    ∃ n' ≤ n, H'.ofAlternative? a = some n' := by
  cases a with
  | letter t => exact ⟨n, le_rfl, ha⟩
  | pair b d =>
    obtain ⟨l, r, hl, hr, rfl⟩ := ofAlternative?_pair_eq_some.1 ha
    obtain ⟨l', hl', hb⟩ := h b l hl
    obtain ⟨r', hr', hd⟩ := h d r hr
    exact ⟨1 + max l' r', by omega, ofAlternative?_pair_eq_some.2 ⟨l', r', hb, hd, rfl⟩⟩

theorem Realised.ofAlternative? (h : Realised g H) {c : Char} (hc : a ∈ g.alternatives c) {n : Nat}
    (ha : H.ofAlternative? a = some n) : ∃ t : Tree, t.Of g ∧ t.symbol = c ∧ t.height = n := by
  cases a with
  | letter t =>
    cases ha
    exact ⟨.leaf c t, hc, rfl, rfl⟩
  | pair b d =>
    obtain ⟨l, r, hl, hr, rfl⟩ := ofAlternative?_pair_eq_some.1 ha
    obtain ⟨left, ht, rfl, rfl⟩ := h b l hl
    obtain ⟨right, ht', rfl, rfl⟩ := h d r hr
    exact ⟨.node c left right, ⟨hc, ht, ht'⟩, rfl, rfl⟩

theorem Covers.ofAlternative? (h : Covers g k H) {t : Tree} (ht : t.Of g) (hk : t.height ≤ k + 1) :
    ∃ n ≤ t.height, H.ofAlternative? t.alternative = some n := by
  cases t with
  | leaf c t => exact ⟨1, le_rfl, rfl⟩
  | node c left right =>
    simp only [Tree.height] at hk ⊢
    obtain ⟨l, hl, hb⟩ := h left ht.2.1 (by omega)
    obtain ⟨r, hr, hd⟩ := h right ht.2.2 (by omega)
    exact ⟨1 + max l r, by omega, ofAlternative?_pair_eq_some.2 ⟨l, r, hb, hd, rfl⟩⟩

/-- Either nothing changes, and what the production offers is known or beaten already; or it offers
a height lower than any known, and that is set. -/
theorem improve_cases (H : Heights) (flag : Bool) (rule : Char × Alternative) :
    improve (H, flag) rule = (H, flag)
        ∧ (∀ n, H.ofAlternative? rule.2 = some n → ∃ n' ≤ n, H.of? rule.1 = some n')
      ∨ ∃ n, H.ofAlternative? rule.2 = some n ∧ (∀ n', H.of? rule.1 = some n' → n < n')
        ∧ improve (H, flag) rule = (H.set rule.1 n, true) := by
  simp only [improve]
  cases ha : H.ofAlternative? rule.2 with
  | none => exact .inl ⟨rfl, by simp⟩
  | some n =>
    cases hc : H.of? rule.1 with
    | none => exact .inr ⟨n, rfl, by simp, rfl⟩
    | some n' =>
      by_cases hn : n < n'
      · exact .inr ⟨n, rfl, by simpa using hn, by simp [hn]⟩
      · refine .inl ⟨by simp [hn], fun m hm => ⟨n', ?_, rfl⟩⟩
        simp only [Option.some.injEq] at hm
        omega

theorem improve_noHigher (H : Heights) (flag : Bool) (rule : Char × Alternative) :
    NoHigher H (improve (H, flag) rule).1 := by
  rcases improve_cases H flag rule with ⟨h, -⟩ | ⟨n, -, hlow, h⟩
  · rw [h]
    exact .refl H
  · rw [h]
    intro c n' hc
    rw [of?_set]
    split_ifs with he
    · subst he
      exact ⟨n, (hlow n' hc).le, rfl⟩
    · exact ⟨n', le_rfl, hc⟩

theorem Realised.improve (h : Realised g H) (flag : Bool) {rule : Char × Alternative}
    (hr : rule.2 ∈ g.alternatives rule.1) : Realised g (improve (H, flag) rule).1 := by
  rcases improve_cases H flag rule with ⟨he, -⟩ | ⟨n, ha, -, he⟩
  · rw [he]
    exact h
  · rw [he]
    intro c n' hc
    rw [of?_set] at hc
    split_ifs at hc with hcr
    · cases hc
      exact hcr ▸ h.ofAlternative? hr ha
    · exact h c n' hc

theorem improve_offer (flag : Bool) {rule : Char × Alternative} {n : Nat}
    (ha : H.ofAlternative? rule.2 = some n) :
    ∃ n' ≤ n, (improve (H, flag) rule).1.of? rule.1 = some n' := by
  rcases improve_cases H flag rule with ⟨he, hk⟩ | ⟨m, hm, -, he⟩
  · rw [he]
    exact hk n ha
  · rw [he, of?_set, if_pos rfl]
    exact ⟨m, by rw [ha] at hm; cases hm; exact le_rfl, rfl⟩

/-! ## One sweep -/

theorem foldl_improve_noHigher :
    ∀ (rules : List (Char × Alternative)) (state : Heights × Bool),
      NoHigher state.1 (rules.foldl improve state).1
  | [], state => .refl state.1
  | rule :: rules, state =>
    (improve_noHigher state.1 state.2 rule).trans (foldl_improve_noHigher rules _)

/-- What a production offers before the sweep it does not have to beat at the end: heights only
fall meanwhile. -/
theorem foldl_improve_offer :
    ∀ (rules : List (Char × Alternative)) (state : Heights × Bool) {rule : Char × Alternative},
      rule ∈ rules → ∀ {n : Nat}, state.1.ofAlternative? rule.2 = some n →
        ∃ n' ≤ n, (rules.foldl improve state).1.of? rule.1 = some n'
  | first :: rules, state, rule, hr, n, ha => by
    rcases List.mem_cons.1 hr with rfl | hr
    · obtain ⟨m, hm, hc⟩ := improve_offer state.2 ha
      obtain ⟨m', hm', hc'⟩ := foldl_improve_noHigher rules (improve state rule) _ _ hc
      exact ⟨m', hm'.trans hm, hc'⟩
    · obtain ⟨m, hm, ha'⟩ := (improve_noHigher state.1 state.2 first).ofAlternative? ha
      obtain ⟨m', hm', hc⟩ := foldl_improve_offer rules (improve state first) hr ha'
      exact ⟨m', hm'.trans hm, hc⟩

theorem foldl_improve_of_false :
    ∀ (rules : List (Char × Alternative)) (state : Heights × Bool),
      (rules.foldl improve state).2 = false → rules.foldl improve state = state
  | [], _, _ => rfl
  | rule :: rules, (H, flag), h => by
    rw [List.foldl_cons] at h ⊢
    have ih := foldl_improve_of_false rules _ h
    rcases improve_cases H flag rule with ⟨he, -⟩ | ⟨n, -, -, he⟩
    · rw [he] at ih ⊢
      exact ih
    · rw [ih, he] at h
      cases h

theorem covers_zero (H : Heights) : Covers g 0 H := fun t _ hk => by
  have := t.height_pos
  omega

theorem Covers.sweep (hg : g.nonterminals.Nodup) (h : Covers g k H) :
    Covers g (k + 1) (g.sweep H).1 := by
  intro t ht hk
  obtain ⟨n, hn, ha⟩ := h.ofAlternative? ht hk
  have hr : (t.symbol, t.alternative) ∈ g.rules :=
    (Grammar.mem_rules_iff hg).2 ht.alternative_mem
  obtain ⟨n', hn', hc⟩ := foldl_improve_offer g.rules (H, false) hr ha
  exact ⟨n', hn'.trans hn, hc⟩

theorem Realised.sweep (hg : g.nonterminals.Nodup) (h : Realised g H) :
    Realised g (g.sweep H).1 :=
  List.foldlRecOn g.rules Heights.improve (motive := (Realised g ·.1)) h
    fun _ hs _ hr => hs.improve _ ((Grammar.mem_rules_iff hg).1 hr)

theorem covers_of_sweep_eq (hg : g.nonterminals.Nodup) (h : (g.sweep H).1 = H) :
    ∀ k, Covers g k H
  | 0 => covers_zero H
  | k + 1 => by
    have := (covers_of_sweep_eq hg h k).sweep hg
    rwa [h] at this

theorem Covers.all (h : Covers g g.nonterminals.length H) (k : Nat) : Covers g k H := by
  intro t ht _
  obtain ⟨n, hn, hmin⟩ := Grammar.exists_minHeight ht
  obtain ⟨u, hu, hs, rfl⟩ := hmin.1
  obtain ⟨m, hm, hc⟩ := h u hu hmin.le_length
  exact ⟨m, hm.trans hn, hs ▸ hc⟩

theorem Realised.of?_eq (hr : Realised g H) (hc : Covers g k H) {c : Char} {n : Nat}
    (hmin : g.MinHeight c n) (hn : n ≤ k) : H.of? c = some n := by
  obtain ⟨t, ht, rfl, rfl⟩ := hmin.1
  obtain ⟨m, hm, hH⟩ := hc t ht hn
  obtain ⟨u, hu, hs, rfl⟩ := hr _ _ hH
  rw [hH, le_antisymm hm (hmin.le hu hs)]

end Heights

/-! ## The largest height -/

/-- What comes out is one of the values or the zero it began with, and no value is larger. -/
theorem isGreatest_foldl_max {α : Type} (f : α → Nat) (l : List α) :
    IsGreatest {n | n = 0 ∨ ∃ x ∈ l, f x = n} (l.foldl (fun most x => max most (f x)) 0) := by
  have hmax : (0 :: l.map f).max? = some (l.foldl (fun most x => max most (f x)) 0) := by
    rw [List.max?_cons', List.foldl_map]
  obtain ⟨hmem, hle⟩ := List.max?_eq_some_iff.1 hmax
  refine ⟨?_, fun n hn => hle n ?_⟩
  · simpa using hmem
  · simpa [eq_comm] using hn

theorem Heights.le_largest {H : Heights} {c : Char} {n : Nat} (h : H.of? c = some n) :
    n ≤ H.largest := by
  obtain ⟨before, after, hH, -⟩ := List.lookup_eq_some_iff.1 h
  have hm : (c, n) ∈ H := by simp [hH]
  exact (isGreatest_foldl_max Prod.snd H).2 (.inr ⟨(c, n), hm, rfl⟩)

/-! ## All sweeps -/

namespace Grammar

variable {g : Grammar} {H : Heights}

theorem settle_realised (hg : g.nonterminals.Nodup) : ∀ (sweeps : Nat) {H : Heights},
    H.Realised g → (g.settle sweeps H).Realised g
  | 0, _, h => h
  | sweeps + 1, H, h => by
    have hs := h.sweep hg
    unfold settle
    split <;> rename_i he <;> rw [he] at hs
    · exact settle_realised hg sweeps hs
    · exact hs

theorem settle_covers (hg : g.nonterminals.Nodup) : ∀ (sweeps k : Nat) {H : Heights},
    H.Covers g k → g.nonterminals.length ≤ sweeps + k → ∀ m, (g.settle sweeps H).Covers g m
  | 0, k, H, h, hk, m => by
    refine Heights.Covers.all (fun t ht hn => h t ht ?_) m
    omega
  | sweeps + 1, k, H, h, hk, m => by
    unfold settle
    split <;> rename_i he
    · -- a sweep gained a level
      have hs := h.sweep hg
      rw [he] at hs
      exact settle_covers hg sweeps (k + 1) hs (by omega) m
    · -- a sweep changed nothing, so there is no level left to gain
      have hs : g.sweep H = (H, false) :=
        Heights.foldl_improve_of_false g.rules (H, false) (congrArg Prod.snd he)
      rw [hs] at he
      cases he
      exact Heights.covers_of_sweep_eq hg (by rw [hs]) m

theorem heights_realised (hg : g.nonterminals.Nodup) : g.heights.Realised g :=
  settle_realised hg _ fun _ _ h => by cases h

theorem heights_covers (hg : g.nonterminals.Nodup) (k : Nat) : g.heights.Covers g k :=
  settle_covers hg _ 0 (Heights.covers_zero []) (by omega) k

theorem of?_heights_iff (hg : g.nonterminals.Nodup) {c : Char} {n : Nat} :
    g.heights.of? c = some n ↔ g.MinHeight c n := by
  refine ⟨fun h => ?_, fun h => (heights_realised hg).of?_eq (heights_covers hg n) h le_rfl⟩
  refine ⟨heights_realised hg c n h, fun m hm => ?_⟩
  obtain ⟨t, ht, rfl, rfl⟩ := hm
  obtain ⟨n', hn', hc⟩ := heights_covers hg t.height t ht le_rfl
  cases h.symm.trans hc
  exact hn'

theorem ofAlternative?_heights_iff (hg : g.nonterminals.Nodup) {a : Alternative} {n : Nat} :
    g.heights.ofAlternative? a = some n ↔ g.AlternativeHeight a n := by
  cases a with
  | letter t => simp [Heights.ofAlternative?, AlternativeHeight, eq_comm]
  | pair b d =>
    simp only [Heights.ofAlternative?_pair_eq_some, of?_heights_iff hg, AlternativeHeight]

end Grammar

end Chomsky
