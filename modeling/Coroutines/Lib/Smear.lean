import Mathlib.Algebra.Group.Nat.Defs
import Mathlib.Data.Nat.Size
import Mathlib.Order.Bounds.Basic

/-!
# Smearing the highest bit

A word or-ed with itself shifted right spreads every set bit downwards. After shifts that
reach over the whole word every bit below the highest set one is set, which leaves the word
one below a power of two.
-/

namespace Smear

/-- Each bit of `r` tells whether `m` has a set bit among the `k` from that one up. -/
def Smears (k m r : ℕ) : Prop :=
  ∀ i, r.testBit i = true ↔ ∃ j, i ≤ j ∧ j < i + k ∧ m.testBit j = true

theorem Smears.refl (m : ℕ) : Smears 1 m m := by
  intro i
  constructor
  · intro h
    exact ⟨i, Nat.le_refl i, Nat.lt_succ_self i, h⟩
  · rintro ⟨j, hle, hlt, h⟩
    rwa [Nat.le_antisymm hle (Nat.le_of_lt_succ hlt)]

/-- One shift by no more than what is smeared already leaves no gap. -/
theorem Smears.step {k m r d : ℕ} (h : Smears k m r) (hd : d ≤ k) :
    Smears (k + d) m (r ||| r >>> d) := by
  intro i
  rw [Nat.testBit_or, Nat.testBit_shiftRight, Bool.or_eq_true, h, h]
  constructor
  · rintro (⟨j, hle, hlt, hj⟩ | ⟨j, hle, hlt, hj⟩)
    · exact ⟨j, hle, by omega, hj⟩
    · exact ⟨j, by omega, by omega, hj⟩
  · rintro ⟨j, hle, hlt, hj⟩
    by_cases hnear : j < i + k
    · exact Or.inl ⟨j, hle, hnear, hj⟩
    · exact Or.inr ⟨j, by omega, by omega, hj⟩

theorem lt_size_iff_testBit (m i : ℕ) : i < m.size ↔ ∃ j, i ≤ j ∧ m.testBit j = true := by
  rw [Nat.lt_size]
  constructor
  · intro h
    obtain ⟨j, hle, hj⟩ := Nat.exists_ge_and_testBit_of_ge_two_pow h
    exact ⟨j, hle, hj⟩
  · rintro ⟨j, hle, hj⟩
    exact le_trans (Nat.pow_le_pow_right (by decide) hle) (Nat.ge_two_pow_of_testBit hj)

/-- **Smearing over the whole word fills it** up to the highest set bit. -/
theorem Smears.eq_two_pow_sub_one {k m r : ℕ} (h : Smears k m r) (hm : m < 2 ^ k) :
    r = 2 ^ m.size - 1 := by
  apply Nat.eq_of_testBit_eq
  intro i
  rw [Nat.testBit_two_pow_sub_one, Bool.eq_iff_iff, decide_eq_true_iff, lt_size_iff_testBit, h]
  constructor
  · rintro ⟨j, hle, -, hj⟩
    exact ⟨j, hle, hj⟩
  · rintro ⟨j, hle, hj⟩
    have hlt : j < k := by
      by_contra hge
      rw [Nat.testBit_lt_two_pow (hm.trans_le (Nat.pow_le_pow_right (by decide)
        (Nat.le_of_not_lt hge)))] at hj
      cases hj
    exact ⟨j, hle, by omega, hj⟩

/-- The power of two just above `n - 1` is the least one that is not below `n`. -/
theorem isLeast_two_pow_size {n : ℕ} (hn : 1 ≤ n) :
    IsLeast {p | (∃ e, p = 2 ^ e) ∧ n ≤ p} (2 ^ (n - 1).size) := by
  constructor
  · have hlt : n - 1 < 2 ^ (n - 1).size := Nat.lt_size_self (n - 1)
    exact ⟨⟨_, rfl⟩, Nat.le_of_pred_lt hlt⟩
  · rintro p ⟨⟨e, rfl⟩, hle⟩
    apply Nat.pow_le_pow_right (by decide)
    rw [Nat.size_le]
    exact Nat.lt_of_lt_of_le (Nat.sub_lt hn Nat.one_pos) hle

end Smear
