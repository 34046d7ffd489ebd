import Mathlib.Data.BitVec

/-!
# A flag and a count in one word

The lowest bit of a word is a flag and the bits above it are a count, so that one more is
two more. Counting up or down leaves the flag alone, and raising the flag leaves the count.
-/

namespace FlagWord

variable {w : ℕ}

/-- The flag of the word is up. -/
def flagged (x : BitVec w) : Prop := x &&& 1 ≠ 0

instance (x : BitVec w) : Decidable (flagged x) := inferInstanceAs (Decidable (_ ≠ _))

theorem toNat_one (hw : 0 < w) : (1 : BitVec w).toNat = 1 := by
  apply Nat.mod_eq_of_lt
  exact Nat.one_lt_two_pow (Nat.pos_iff_ne_zero.mp hw)

theorem flagged_iff (hw : 0 < w) (x : BitVec w) : flagged x ↔ x.toNat % 2 = 1 := by
  have hand : (x &&& 1).toNat = x.toNat % 2 := by
    rw [BitVec.toNat_and, toNat_one hw, Nat.and_one_is_mod]
  constructor
  · intro h
    by_contra hne
    apply h
    apply BitVec.eq_of_toNat_eq
    rw [hand]
    exact Nat.mod_two_ne_one.mp hne
  · intro h hzero
    rw [hzero] at hand
    rw [h] at hand
    cases hand

theorem flagged_add_two (hw : 1 < w) (x : BitVec w) : flagged (x + 2) ↔ flagged x := by
  have hpos : 0 < w := Nat.zero_lt_of_lt hw
  have hdvd : 2 ∣ 2 ^ w := dvd_pow_self 2 (Nat.pos_iff_ne_zero.mp hpos)
  have htwo : (2 : BitVec w).toNat % 2 = 0 := Nat.mod_mod_of_dvd 2 hdvd
  rw [flagged_iff hpos, flagged_iff hpos, BitVec.toNat_add, Nat.mod_mod_of_dvd _ hdvd,
    Nat.add_mod, htwo, Nat.add_zero, Nat.mod_mod]

theorem flagged_sub_two (hw : 1 < w) (x : BitVec w) : flagged (x - 2) ↔ flagged x := by
  rw [← flagged_add_two hw, BitVec.sub_add_cancel]

theorem flagged_or_one (hw : 0 < w) (x : BitVec w) : flagged (x ||| 1) := by
  rw [flagged_iff hw, BitVec.toNat_or, toNat_one hw, Nat.or_mod_two_eq_one]
  exact Or.inr rfl

/-- Raising the flag of a word that counts `k`. -/
theorem toNat_or_one (hw : 0 < w) {x : BitVec w} {k : ℕ} {b : Bool}
    (h : x.toNat = 2 * k + b.toNat) : (x ||| 1).toNat = 2 * k + 1 := by
  have hor : 2 * k + 1 = 2 * k ||| 1 := Nat.two_pow_add_eq_or_of_lt (i := 1) (by decide) k
  rw [BitVec.toNat_or, toNat_one hw, h]
  cases b with
  | false => exact hor.symm
  | true =>
      show 2 * k + 1 ||| 1 = 2 * k + 1
      rw [hor, Nat.or_assoc, Nat.or_self]

end FlagWord
