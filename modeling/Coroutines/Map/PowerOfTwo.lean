import Coroutines.Lib.Smear
import Coroutines.Map.Basic

/-!
# `next_power_of_2`

The six shifts of the source reach over all 64 bits, so the word before the last increment is
one below a power of two. At the top of the range the increment wraps.
-/

namespace Coroutines.Map

open Smear

/-- `n |= n >> d;` -/
theorem smears_or_shift {k m d : ℕ} {x : Size} (h : Smears k m x.toNat) (hd : d ≤ k) :
    Smears (k + d) m (x ||| x >>> d).toNat := by
  rw [BitVec.toNat_or, BitVec.toNat_ushiftRight]
  exact h.step hd

theorem nextPowerOf2_toNat (n : Size) :
    (nextPowerOf2 n).toNat = 2 ^ (n - 1).toNat.size % 2 ^ 64 := by
  have hcascade : ∃ x : Size, Smears 64 (n - 1).toNat x.toNat ∧ nextPowerOf2 n = x + 1 := by
    refine ⟨_, ?_, rfl⟩
    have h1 := smears_or_shift (Smears.refl (n - 1).toNat) (d := 1) (by decide)
    have h2 := smears_or_shift h1 (d := 2) (by decide)
    have h4 := smears_or_shift h2 (d := 4) (by decide)
    have h8 := smears_or_shift h4 (d := 8) (by decide)
    have h16 := smears_or_shift h8 (d := 16) (by decide)
    exact smears_or_shift h16 (d := 32) (by decide)
  obtain ⟨x, hx, hnext⟩ := hcascade
  have hpos : 0 < 2 ^ (n - 1).toNat.size := Nat.two_pow_pos _
  rw [hnext, BitVec.toNat_add, hx.eq_two_pow_sub_one (BitVec.isLt _)]
  show (2 ^ (n - 1).toNat.size - 1 + 1) % 2 ^ 64 = _
  rw [Nat.sub_add_cancel hpos]

theorem nextPowerOf2_toNat_of_pos {n : Size} (h : 1 ≤ n.toNat) :
    (nextPowerOf2 n).toNat = 2 ^ (n.toNat - 1).size % 2 ^ 64 := by
  have hpred : (n - 1).toNat = n.toNat - 1 := BitVec.toNat_sub_of_le h
  rw [nextPowerOf2_toNat, hpred]

theorem nextPowerOf2_toNat_of_le {n : Size} (hlow : 1 ≤ n.toNat) (hhigh : n.toNat ≤ 2 ^ 63) :
    (nextPowerOf2 n).toNat = 2 ^ (n.toNat - 1).size := by
  have hsize : (n.toNat - 1).size ≤ 63 := by
    rw [Nat.size_le]
    exact Nat.lt_of_lt_of_le (Nat.sub_lt hlow Nat.one_pos) hhigh
  have hfits : 2 ^ (n.toNat - 1).size < 2 ^ 64 :=
    Nat.pow_lt_pow_right (by decide) (Nat.lt_succ_of_le hsize)
  rw [nextPowerOf2_toNat_of_pos hlow, Nat.mod_eq_of_lt hfits]

/-- **The next power of two**, wherever there is one in the word. -/
theorem nextPowerOf2_isLeast (n : Size) (hlow : 1 ≤ n.toNat) (hhigh : n.toNat ≤ 2 ^ 63) :
    IsLeast {p | (∃ e, p = 2 ^ e) ∧ n.toNat ≤ p} (nextPowerOf2 n).toNat := by
  rw [nextPowerOf2_toNat_of_le hlow hhigh]
  exact isLeast_two_pow_size hlow

theorem nextPowerOf2_isLeast_five :
    IsLeast {p | (∃ e, p = 2 ^ e) ∧ 5 ≤ p} (nextPowerOf2 5).toNat :=
  nextPowerOf2_isLeast 5 (by decide) (by decide)

/-- The initial capacity: half of the next power of two is the one before. -/
theorem nextPowerOf2_half {n : Size} (hlow : 2 ≤ n.toNat) (hhigh : n.toNat ≤ 2 ^ 63) :
    ∃ k, (nextPowerOf2 n >>> 1).toNat = 2 ^ k ∧ 2 ^ k < n.toNat := by
  have hpos : 0 < (n.toNat - 1).size := Nat.size_pos.mpr (Nat.sub_pos_of_lt hlow)
  refine ⟨(n.toNat - 1).size - 1, ?_, ?_⟩
  · rw [BitVec.toNat_ushiftRight, nextPowerOf2_toNat_of_le (Nat.le_of_lt hlow) hhigh,
      Nat.shiftRight_eq_div_pow]
    exact Nat.pow_div hpos two_pos
  · have hle : 2 ^ ((n.toNat - 1).size - 1) ≤ n.toNat - 1 := by
      rw [← Nat.lt_size]
      exact Nat.sub_lt hpos Nat.one_pos
    exact Nat.lt_of_le_sub_one (Nat.lt_of_lt_of_le Nat.two_pos hlow) hle

/-- The initial capacity is a power of two within the maximum, from two buckets on. -/
theorem initCapacity_pow2 {maxCapacity : Size} (hmax : 2 ≤ maxCapacity.toNat) :
    ∃ k, (nextPowerOf2 (if maxCapacity < defaultInitCapacity then maxCapacity
      else defaultInitCapacity) >>> 1).toNat = 2 ^ k ∧ 2 ^ k < maxCapacity.toNat := by
  by_cases hlt : maxCapacity < defaultInitCapacity
  · have hle : maxCapacity.toNat ≤ 16 := Nat.le_of_lt hlt
    rw [if_pos hlt]
    exact nextPowerOf2_half hmax (hle.trans (by decide))
  · have hge : 16 ≤ maxCapacity.toNat := Nat.le_of_not_lt hlt
    rw [if_neg hlt]
    obtain ⟨k, hk, hbelow⟩ := nextPowerOf2_half (n := defaultInitCapacity) (by decide) (by decide)
    exact ⟨k, hk, hbelow.trans_le hge⟩

/-- Above the highest power of two that fits, the increment wraps to zero. -/
theorem nextPowerOf2_wraps (n : Size) (h : 2 ^ 63 < n.toNat) : nextPowerOf2 n = 0 := by
  have hpos : 1 ≤ n.toNat := Nat.one_le_iff_ne_zero.mpr (Nat.ne_of_gt (by omega))
  have hsize : (n.toNat - 1).size = 64 := by
    apply Nat.le_antisymm
    · rw [Nat.size_le]
      have hlt := n.isLt
      omega
    · show 63 < _
      rw [Nat.lt_size]
      omega
  apply BitVec.eq_of_toNat_eq
  rw [nextPowerOf2_toNat_of_pos hpos, hsize, Nat.mod_self]
  rfl

end Coroutines.Map
