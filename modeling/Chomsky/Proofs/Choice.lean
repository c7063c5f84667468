import Chomsky.Random.Source
import Mathlib.Data.Nat.Basic

/-!
# Choices by rejection

A choice reads words up to the first one it accepts, and that word alone decides it
(`chooseWithin_eq_some_iff`). No choice is out of reach: for every number below `count` some word is
accepted and leads to it (`exists_word`), so a source that offers this word next is steered to it
(`choose_of_offers`).
-/

namespace Chomsky

namespace Source

/-- The word that comes after so many others. -/
def word (s : Source) (i : Nat) : UInt32 := s.stream (s.taken + i)

/-- The source after so many further words. -/
def skip (s : Source) (words : Nat) : Source := { s with taken := s.taken + words }

/-- Whether a choice among `count` ends with this word. -/
def Accepts (count : Nat) (word : UInt32) : Prop :=
  word.toNat * count % UInt32.size ≤ acceptanceBound count

instance (count : Nat) (word : UInt32) : Decidable (Accepts count word) :=
  inferInstanceAs (Decidable (_ ≤ _))

/-- What a choice among `count` yields if it ends with this word. -/
def index (count : Nat) (word : UInt32) : Nat := word.toNat * count / UInt32.size

/-- Whether the next words of a source are these. -/
def Offers (s : Source) (words : List UInt32) : Prop :=
  ∀ i word, words[i]? = some word → s.word i = word

variable {s s' : Source} {count i : Nat}

@[simp] theorem skip_skip (s : Source) (m n : Nat) : (s.skip m).skip n = s.skip (m + n) := by
  simp only [skip, Nat.add_assoc]

@[simp] theorem word_skip (s : Source) (m n : Nat) : (s.skip m).word n = s.word (m + n) := by
  simp only [word, skip, Nat.add_assoc]

/-! ## What a choice reads -/

theorem chooseWithin_succ (count tries : Nat) (s : Source) :
    chooseWithin count (tries + 1) s =
      if Accepts count (s.word 0) then some (index count (s.word 0), s.skip 1)
      else chooseWithin count tries (s.skip 1) := rfl

theorem chooseWithin_eq_some_iff : ∀ {tries : Nat} {s : Source},
    chooseWithin count tries s = some (i, s') ↔ ∃ k < tries,
      (∀ j < k, ¬ Accepts count (s.word j)) ∧ Accepts count (s.word k)
        ∧ index count (s.word k) = i ∧ s.skip (k + 1) = s'
  | 0, s => by simp [chooseWithin]
  | tries + 1, s => by
    rw [chooseWithin_succ]
    split_ifs with h
    · rw [Option.some_inj, Prod.mk.injEq]
      refine ⟨fun he => ⟨0, by omega, by simp, h, he⟩, fun ⟨k, _, hk, _, he⟩ => ?_⟩
      cases k with
      | zero => exact he
      | succ k => exact absurd h (hk 0 (by omega))
    · rw [chooseWithin_eq_some_iff]
      simp only [word_skip, skip_skip, Nat.add_comm 1]
      refine ⟨fun ⟨k, hk, hr, ha⟩ => ⟨k + 1, by omega, fun j hj => ?_, ha⟩,
        fun ⟨k, hk, hr, ha⟩ => ?_⟩
      · cases j with
        | zero => exact h
        | succ j => exact hr j (by omega)
      · cases k with
        | zero => exact absurd ha.1 h
        | succ k => exact ⟨k, by omega, fun j hj => hr (j + 1) (by omega), ha⟩

theorem index_lt (hc : 0 < count) (word : UInt32) : index count word < count := by
  have hw : word.toNat < UInt32.size := word.toNat_lt_size
  exact Nat.div_lt_of_lt_mul (Nat.mul_lt_mul_of_pos_right hw hc)

theorem lt_of_choose (hc : 0 < count) (h : s.choose count = some (i, s')) : i < count := by
  obtain ⟨k, -, -, -, rfl, -⟩ := chooseWithin_eq_some_iff.1 h
  exact index_lt hc _

/-! ## Steering a choice -/

theorem le_acceptanceBound {n : Nat} (h : n < count) : n ≤ acceptanceBound count := by
  rw [acceptanceBound, Nat.shiftLeft_eq]
  have := Nat.le_mul_of_pos_right count (Nat.two_pow_pos (31 - count.log2))
  omega

theorem exists_word (hc : count < UInt32.size) (hi : i < count) :
    ∃ word, Accepts count word ∧ index count word = i := by
  have hsize : UInt32.size = 4294967296 := rfl
  -- the least word whose product has `i` in the high half, or more: it overshoots by less than
  -- `count`, so its low half is below the bound
  let w := (i * UInt32.size + (count - 1)) / count
  have hle : w * count ≤ i * UInt32.size + (count - 1) := Nat.div_mul_le_self _ _
  have hlt : i * UInt32.size + (count - 1) < w * count + count := Nat.lt_div_mul_add (by omega)
  have hw : w < UInt32.size := by
    have : (i + 1) * UInt32.size ≤ count * UInt32.size := Nat.mul_le_mul_right _ hi
    refine Nat.div_lt_of_lt_mul ?_
    rw [hsize] at this ⊢
    omega
  rw [hsize] at hle hlt
  refine ⟨UInt32.ofNat w, ?_, ?_⟩
  · rw [Accepts, UInt32.toNat_ofNat_of_lt' hw, hsize]
    exact le_acceptanceBound (by omega)
  · rw [index, UInt32.toNat_ofNat_of_lt' hw, hsize]
    omega

theorem Offers.left {u v : List UInt32} (h : s.Offers (u ++ v)) : s.Offers u := by
  intro i word hw
  refine h i word ?_
  rw [List.getElem?_append_left (List.getElem?_eq_some_iff.1 hw).1, hw]

theorem Offers.right {u v : List UInt32} (h : s.Offers (u ++ v)) :
    (s.skip u.length).Offers v := by
  intro i word hw
  rw [word_skip]
  refine h _ word ?_
  rw [List.getElem?_append_right (by omega), Nat.add_sub_cancel_left, hw]

theorem offers_ofList (words : List UInt32) : (ofList words).Offers words := by
  intro i word hw
  simp [Source.word, ofList, ofStream, hw]

theorem choose_of_offers {word : UInt32} (h : Accepts count word) (hs : s.Offers [word]) :
    s.choose count = some (index count word, s.skip 1) := by
  have hw : s.word 0 = word := hs 0 word rfl
  exact chooseWithin_eq_some_iff.2 ⟨0, by omega, by simp, hw.symm ▸ h, by rw [hw], rfl⟩

end Source

end Chomsky
