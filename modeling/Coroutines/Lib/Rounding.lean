import Mathlib.Data.Int.Log
import Mathlib.Data.Rat.Floor
import Mathlib.Algebra.Order.Field.Power
import Mathlib.Tactic.Positivity

/-!
# Rounding of nonnegative numbers

A `Rounding` is monotone and leaves zero and the powers of two alone. `exact` does not round;
`binary64` rounds to the nearest number with 53 significant bits, ties to even, which
is what double precision does between its smallest and its largest normal number.
-/

structure Rounding where
  round : ℚ → ℚ
  zero : round 0 = 0
  mono : ∀ {q r : ℚ}, 0 ≤ q → q ≤ r → round q ≤ round r
  zpow : ∀ k : ℤ, round (2 ^ k) = 2 ^ k

namespace Rounding

theorem nonneg (fl : Rounding) {q : ℚ} (h : 0 ≤ q) : 0 ≤ fl.round q := by
  have hmono := fl.mono (le_refl 0) h
  rwa [fl.zero] at hmono

def exact : Rounding where
  round := id
  zero := rfl
  mono _ h := h
  zpow _ := rfl

/-- The nearest integer, the even one of two that are equally near. -/
def nearestEven (q : ℚ) : ℤ :=
  if q - ⌊q⌋ < 1 / 2 then ⌊q⌋
  else if 1 / 2 < q - ⌊q⌋ then ⌊q⌋ + 1
  else if ⌊q⌋ % 2 = 0 then ⌊q⌋ else ⌊q⌋ + 1

theorem nearestEven_bounds (q : ℚ) : ⌊q⌋ ≤ nearestEven q ∧ nearestEven q ≤ ⌊q⌋ + 1 := by
  unfold nearestEven
  split_ifs <;> omega

theorem nearestEven_int (n : ℤ) : nearestEven n = n := by
  unfold nearestEven
  simp

theorem nearestEven_mono {q r : ℚ} (h : q ≤ r) : nearestEven q ≤ nearestEven r := by
  rcases (Int.floor_le_floor h).lt_or_eq with hlt | heq
  · have hq := (nearestEven_bounds q).2
    have hr := (nearestEven_bounds r).1
    omega
  · unfold nearestEven
    rw [heq]
    split_ifs <;> first | omega | linarith

/-- Round to 53 significant bits. -/
def toBinary64 (q : ℚ) : ℚ :=
  nearestEven (q * 2 ^ (52 - Int.log 2 q)) * 2 ^ (Int.log 2 q - 52)

theorem two_zpow_52 : (2 : ℚ) ^ (52 : ℤ) = ((2 ^ 52 : ℤ) : ℚ) := by norm_num

theorem two_zpow_53 : (2 : ℚ) ^ (53 : ℤ) = ((2 ^ 53 : ℤ) : ℚ) := by norm_num

theorem toBinary64_zpow (k : ℤ) : toBinary64 (2 ^ k) = 2 ^ k := by
  have hlog : Int.log 2 ((2 : ℚ) ^ k) = k := by
    exact_mod_cast Int.log_zpow (R := ℚ) (b := 2) (by decide) k
  unfold toBinary64
  rw [hlog, ← zpow_add₀ (by norm_num), show k + (52 - k) = 52 by ring, two_zpow_52,
    nearestEven_int, ← two_zpow_52, ← zpow_add₀ (by norm_num)]
  congr 1
  ring

theorem toBinary64_zero : toBinary64 0 = 0 := by
  have h0 : nearestEven 0 = 0 := by exact_mod_cast nearestEven_int 0
  unfold toBinary64
  rw [zero_mul, h0, Int.cast_zero, zero_mul]

/-- A number below a power of two is not rounded past it. -/
theorem toBinary64_le_zpow {q : ℚ} {k : ℤ} (h : Int.log 2 q < k) :
    toBinary64 q ≤ 2 ^ k := by
  have hlt : q < 2 ^ (Int.log 2 q + 1) := by
    exact_mod_cast Int.lt_zpow_succ_log_self (b := 2) (by decide) q
  have hscaled : q * 2 ^ (52 - Int.log 2 q) ≤ ((2 ^ 53 : ℤ) : ℚ) := by
    calc q * 2 ^ (52 - Int.log 2 q)
        ≤ 2 ^ (Int.log 2 q + 1) * 2 ^ (52 - Int.log 2 q) := by gcongr
      _ = 2 ^ (53 : ℤ) := by
          rw [← zpow_add₀ (by norm_num)]
          congr 1
          ring
      _ = ((2 ^ 53 : ℤ) : ℚ) := two_zpow_53
  have hnear : (nearestEven (q * 2 ^ (52 - Int.log 2 q)) : ℚ) ≤ 2 ^ (53 : ℤ) := by
    have h53 := nearestEven_mono hscaled
    rw [nearestEven_int] at h53
    rw [two_zpow_53]
    exact_mod_cast h53
  calc toBinary64 q
      ≤ 2 ^ (53 : ℤ) * 2 ^ (Int.log 2 q - 52) := by
        unfold toBinary64
        gcongr
    _ = 2 ^ (Int.log 2 q + 1) := by
        rw [← zpow_add₀ (by norm_num)]
        congr 1
        ring
    _ ≤ 2 ^ k := zpow_le_zpow_right₀ (by norm_num) (by omega)

/-- A number is not rounded below the power of two at its head. -/
theorem zpow_le_toBinary64 {q : ℚ} (hq : 0 < q) : 2 ^ Int.log 2 q ≤ toBinary64 q := by
  have hle : 2 ^ Int.log 2 q ≤ q := by
    exact_mod_cast Int.zpow_log_le_self (b := 2) (by decide) hq
  have hscaled : ((2 ^ 52 : ℤ) : ℚ) ≤ q * 2 ^ (52 - Int.log 2 q) := by
    calc ((2 ^ 52 : ℤ) : ℚ) = 2 ^ (52 : ℤ) := two_zpow_52.symm
      _ = 2 ^ Int.log 2 q * 2 ^ (52 - Int.log 2 q) := by
          rw [← zpow_add₀ (by norm_num)]
          congr 1
          ring
      _ ≤ q * 2 ^ (52 - Int.log 2 q) := by gcongr
  have hnear : (2 : ℚ) ^ (52 : ℤ) ≤ nearestEven (q * 2 ^ (52 - Int.log 2 q)) := by
    have h52 := nearestEven_mono hscaled
    rw [nearestEven_int] at h52
    rw [two_zpow_52]
    exact_mod_cast h52
  calc (2 : ℚ) ^ Int.log 2 q
      = 2 ^ (52 : ℤ) * 2 ^ (Int.log 2 q - 52) := by
        rw [← zpow_add₀ (by norm_num)]
        congr 1
        ring
    _ ≤ toBinary64 q := by
        unfold toBinary64
        gcongr

theorem toBinary64_mono {q r : ℚ} (hq : 0 ≤ q) (h : q ≤ r) :
    toBinary64 q ≤ toBinary64 r := by
  rcases hq.lt_or_eq with hpos | rfl
  · have hr : 0 < r := lt_of_lt_of_le hpos h
    rcases (Int.log_mono_right hpos h : Int.log 2 q ≤ Int.log 2 r).lt_or_eq with hlt | heq
    · exact (toBinary64_le_zpow hlt).trans (zpow_le_toBinary64 hr)
    · unfold toBinary64
      rw [heq]
      have hnear := nearestEven_mono (q := q * 2 ^ (52 - Int.log 2 r))
        (r := r * 2 ^ (52 - Int.log 2 r)) (by gcongr)
      gcongr
  · rcases h.lt_or_eq with hpos | rfl
    · rw [toBinary64_zero]
      exact (by positivity : (0 : ℚ) ≤ 2 ^ Int.log 2 r).trans (zpow_le_toBinary64 hpos)
    · exact le_refl _

def binary64 : Rounding where
  round := toBinary64
  zero := toBinary64_zero
  mono := toBinary64_mono
  zpow := toBinary64_zpow

end Rounding
