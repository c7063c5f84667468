import Chomsky.Generation
import Chomsky.Proofs.Choice
import Chomsky.Proofs.Derivation

/-!
# Growth

A run that grows a tree is read off as a relation between the tree and the source before and after
it (`Grows`): every node picks an alternative that is open to it, and its parts grow one after the
other from what is left of the source. The bound on the levels only matters for how high the tree
is (`yields_growWithin_iff`).

So a grown tree takes alternatives of the grammar only (`Grows.of`). Conversely, a pick that is open
can be had from a source that offers the right word (`exists_picks`).
-/

namespace Chomsky

/-! ## Running a computation -/

namespace Generation

/-- Whether a computation succeeds on a source with this answer and leaves the source like that. -/
def Yields {α : Type} (x : Generation α) (s : Source) (a : α) (s' : Source) : Prop :=
  x.run s = some (.ok a, s')

variable {α β : Type} {s s' : Source} {a : α} {b : β}

theorem run_bind (x : Generation α) (f : α → Generation β) (s : Source) :
    (x >>= f).run s = (x.run s).bind fun
      | (.ok a, s') => (f a).run s'
      | (.error e, s') => some (.error e, s') := by
  change (x.run s).bind _ = _
  congr 1
  funext ⟨r, s'⟩
  cases r <;> rfl

@[simp] theorem yields_pure {a' : α} : Yields (pure a) s a' s' ↔ a = a' ∧ s = s' := by
  change some (Except.ok a, s) = some (.ok a', s') ↔ _
  simp

@[simp] theorem yields_throw {e : GenerateError} : ¬ Yields (throw e : Generation α) s a s' := by
  change ¬ some (Except.error e, s) = some (.ok a, s')
  simp

theorem run_lift (m : StateT Source Option α) (s : Source) :
    (ExceptT.lift m : Generation α).run s = (m s).map fun p => (.ok p.1, p.2) := by
  cases h : m s <;> simp [ExceptT.lift, ExceptT.run, ExceptT.mk, Functor.map, StateT.map, h]

@[simp] theorem yields_lift {m : StateT Source Option α} :
    Yields (ExceptT.lift m) s a s' ↔ m s = some (a, s') := by
  rw [Yields, run_lift]
  simp

theorem yields_bind {x : Generation α} {f : α → Generation β} :
    Yields (x >>= f) s b s' ↔ ∃ a s₁, Yields x s a s₁ ∧ Yields (f a) s₁ b s' := by
  rw [Yields, run_bind, Option.bind_eq_some_iff]
  refine ⟨fun ⟨p, hp, h⟩ => ?_, fun ⟨a, s₁, hx, hf⟩ => ⟨_, hx, hf⟩⟩
  rcases p with ⟨e | a, s₁⟩
  · cases h
  · exact ⟨a, s₁, hp, h⟩

theorem yields_map {x : Generation α} {f : α → β} :
    Yields (f <$> x) s b s' ↔ ∃ a, Yields x s a s' ∧ f a = b := by
  rw [map_eq_pure_bind, yields_bind]
  simp

/-- A run that only moves on in the source is known by its answer and by how many words it takes. -/
theorem yields_of_taken {x : Generation α} {words : Nat}
    (hskip : ∀ a s', Yields x s a s' → ∃ n, s' = s.skip n)
    (h : (x.run s).map (fun p => (p.1, p.2.taken)) = some (.ok a, s.taken + words)) :
    Yields x s a (s.skip words) := by
  obtain ⟨⟨_, s'⟩, hrun, hp⟩ := Option.map_eq_some_iff.1 h
  simp only [Prod.mk.injEq] at hp
  obtain ⟨rfl, htaken⟩ := hp
  obtain ⟨n, rfl⟩ := hskip a s' hrun
  obtain rfl : n = words := Nat.add_left_cancel htaken
  exact hrun

theorem yields_chooseAmong {things : List α} :
    Yields (chooseAmong things) s (some a) s' ↔
      ∃ i, s.choose things.length = some (i, s') ∧ things[i]? = some a := by
  unfold chooseAmong
  split_ifs with he
  · simp [List.isEmpty_iff.1 he]
  · simp [yields_map]

end Generation

theorem mem_openAlternatives_iff {heights : Heights} {free height : Nat} {a : Alternative}
    {alternatives : List Alternative} : a ∈ openAlternatives heights free height alternatives ↔
      a ∈ alternatives ∧ ∃ h, heights.ofAlternative? a = some h ∧ (0 < free ∨ h = height) := by
  unfold openAlternatives
  rw [List.mem_filter]
  cases heights.ofAlternative? a <;> simp

namespace Grammar

open Generation

/-! ## Picking an alternative -/

/-- Whether an alternative is open to a node of `c` with so many free levels. -/
def OpenTo (g : Grammar) (H : Heights) (free : Nat) (c : Char) (a : Alternative) : Prop :=
  a ∈ g.alternatives c ∧ ∃ height h, H.of? c = some height ∧ H.ofAlternative? a = some h
    ∧ (0 < free ∨ h = height)

/-- Whether a node of `c` takes this alternative on this source and leaves the source like that. -/
def Picks (g : Grammar) (H : Heights) (free : Nat) (c : Char) (s : Source) (a : Alternative)
    (s' : Source) : Prop :=
  ∃ height, H.of? c = some height
    ∧ Yields (chooseAmong (openAlternatives H free height (g.alternatives c))) s (some a) s'

/-- Whether a tree grows from `c` on this source and leaves the source like that. -/
inductive Grows (g : Grammar) (H : Heights) : Nat → Char → Source → Tree → Source → Prop
  | leaf {free : Nat} {c t : Char} {s s' : Source} (pick : g.Picks H free c s (.letter t) s') :
    Grows g H free c s (.leaf c t) s'
  | node {free : Nat} {c b d : Char} {left right : Tree} {s s₁ s₂ s' : Source}
    (pick : g.Picks H free c s (.pair b d) s₁) (left_grows : Grows g H (free - 1) b s₁ left s₂)
    (right_grows : Grows g H (free - 1) d s₂ right s') : Grows g H free c s (.node c left right) s'

variable {g : Grammar} {H : Heights} {free levels : Nat} {c : Char} {s s' : Source} {t : Tree}
  {a : Alternative}

theorem Picks.openTo (h : g.Picks H free c s a s') : g.OpenTo H free c a := by
  obtain ⟨height, hc, hy⟩ := h
  obtain ⟨i, -, hi⟩ := yields_chooseAmong.1 hy
  obtain ⟨ha, n, hn, hfree⟩ := mem_openAlternatives_iff.1 (List.mem_of_getElem? hi)
  exact ⟨ha, height, n, hc, hn, hfree⟩

theorem exists_picks (hlen : (g.alternatives c).length < UInt32.size) (h : g.OpenTo H free c a) :
    ∃ word, ∀ s : Source, s.Offers [word] → g.Picks H free c s a (s.skip 1) := by
  obtain ⟨ha, height, n, hc, hn, hfree⟩ := h
  obtain ⟨i, hi⟩ := List.mem_iff_getElem?.1 (mem_openAlternatives_iff.2 ⟨ha, n, hn, hfree⟩)
  have hlt := (List.getElem?_eq_some_iff.1 hi).1
  have hle : (openAlternatives H free height (g.alternatives c)).length < UInt32.size :=
    Nat.lt_of_le_of_lt (List.length_filter_le _ _) hlen
  obtain ⟨word, haccept, rfl⟩ := Source.exists_word hle hlt
  exact ⟨word, fun s hs =>
    ⟨height, hc, yields_chooseAmong.2 ⟨_, Source.choose_of_offers haccept hs, hi⟩⟩⟩

/-! ## Growing a tree -/

/-- One node of a run: a pick, and for a pair the two parts on what the pick leaves. -/
theorem yields_growWithin_succ : Yields (g.growWithin H (levels + 1) free c) s t s' ↔
    (∃ x, t = .leaf c x ∧ g.Picks H free c s (.letter x) s')
      ∨ ∃ b d left right s₁ s₂, t = .node c left right ∧ g.Picks H free c s (.pair b d) s₁
        ∧ Yields (g.growWithin H levels (free - 1) b) s₁ left s₂
        ∧ Yields (g.growWithin H levels (free - 1) d) s₂ right s' := by
  rw [growWithin]
  unfold Picks
  cases hc : H.of? c with
  | none => simp
  | some height =>
    simp only [yields_bind]
    refine ⟨fun h => ?_, fun h => ?_⟩
    · obtain ⟨a, s₁, hpick, h⟩ := h
      cases a with
      | none => simp at h
      | some a =>
        cases a with
        | letter x =>
          obtain ⟨rfl, rfl⟩ := yields_pure.1 h
          exact .inl ⟨x, rfl, height, rfl, hpick⟩
        | pair b d =>
          simp only [yields_bind] at h
          obtain ⟨left, s₂, hl, right, s₃, hr, h⟩ := h
          obtain ⟨rfl, rfl⟩ := yields_pure.1 h
          exact .inr ⟨b, d, left, right, s₁, s₂, rfl, ⟨height, rfl, hpick⟩, hl, hr⟩
    · rcases h with
        ⟨x, rfl, _, hh, hpick⟩ | ⟨b, d, left, right, s₁, s₂, rfl, ⟨_, hh, hpick⟩, hl, hr⟩
      · cases hh
        exact ⟨_, _, hpick, yields_pure.2 ⟨rfl, rfl⟩⟩
      · cases hh
        refine ⟨_, _, hpick, ?_⟩
        simp only [yields_bind]
        exact ⟨left, s₂, hl, right, s', hr, yields_pure.2 ⟨rfl, rfl⟩⟩

theorem yields_growWithin_iff : Yields (g.growWithin H levels free c) s t s' ↔
    g.Grows H free c s t s' ∧ t.height ≤ levels := by
  induction levels generalizing free c s t s' with
  | zero =>
    refine iff_of_false (fun h => ?_) fun h => ?_
    · cases h
    · have := t.height_pos
      omega
  | succ levels ih =>
    simp only [yields_growWithin_succ, ih]
    refine ⟨fun h => ?_, fun ⟨h, hle⟩ => ?_⟩
    · rcases h with ⟨x, rfl, hpick⟩ | ⟨b, d, left, right, s₁, s₂, rfl, hpick, ⟨hl, hll⟩, hr, hrl⟩
      · exact ⟨.leaf hpick, by simp [Tree.height]⟩
      · refine ⟨.node hpick hl hr, ?_⟩
        simp only [Tree.height]
        omega
    · cases h with
      | leaf pick => exact .inl ⟨_, rfl, pick⟩
      | node pick hl hr =>
        simp only [Tree.height] at hle
        exact .inr ⟨_, _, _, _, _, _, rfl, pick, ⟨hl, by omega⟩, hr, by omega⟩

theorem Grows.of (h : g.Grows H free c s t s') : t.Of g ∧ t.symbol = c := by
  induction h with
  | leaf pick => exact ⟨pick.openTo.1, rfl⟩
  | node pick _ _ ihl ihr =>
    obtain ⟨hl, rfl⟩ := ihl
    obtain ⟨hr, rfl⟩ := ihr
    exact ⟨⟨pick.openTo.1, hl, hr⟩, rfl⟩

end Grammar

end Chomsky
