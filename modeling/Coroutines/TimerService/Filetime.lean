import Mathlib.Algebra.Order.Field.Rat
import Mathlib.Algebra.Order.Round
import Mathlib.Data.Rat.Floor
import Mathlib.Tactic.FieldSimp
import Mathlib.Tactic.LinearCombination
import Mathlib.Tactic.NormNum
import Mathlib.Tactic.Ring

/-!
# Timeouts as file times

`timeout_to_filetime`, which `applications/timers/win-iocp/timer_service.hpp` and
`applications/timers/win-pool/awaitable_timer.hpp` each define. A file time counts steps of
100 ns in two words. `SetWaitableTimer` and `SetThreadpoolTimer` read it as one signed number:
an interval from now on if it is negative, else a point in time.
-/

namespace Coroutines.TimerService

/-- `std::chrono::duration<Rep, std::ratio<num, den>>`. -/
structure Duration where
  count : ℤ
  num : ℕ
  den : ℕ
  den_pos : 0 < den

namespace Duration

variable (d : Duration)

/-- The ratio of the period to a nanosecond, in lowest terms. -/
def factorNum : ℕ := d.num * 10 ^ 9 / (d.num * 10 ^ 9).gcd d.den

def factorDen : ℕ := d.den / (d.num * 10 ^ 9).gcd d.den

/-- `duration_cast<nanoseconds>(d).count()`. -/
def nanoseconds : ℤ := (d.count * d.factorNum).tdiv d.factorDen

/-- The product in `duration_cast` is an `int64_t`. -/
def Fits : Prop := -2 ^ 63 ≤ d.count * d.factorNum ∧ d.count * d.factorNum < 2 ^ 63

/-- In steps of 100 ns. -/
def ticks : ℤ := d.nanoseconds.tdiv 100

end Duration

/-- `FILETIME`. -/
structure Filetime where
  dwLowDateTime : BitVec 32
  dwHighDateTime : BitVec 32
deriving DecidableEq

def timeoutToFiletime (d : Duration) : Filetime :=
  let quadPart := BitVec.ofInt 64 (-1 * d.ticks)
  { dwLowDateTime := quadPart.extractLsb' 0 32
    dwHighDateTime := quadPart.extractLsb' 32 32 }

/-- The two words as a `LARGE_INTEGER`. -/
def Filetime.quadPart (ft : Filetime) : ℤ := (ft.dwHighDateTime ++ ft.dwLowDateTime).toInt

/-- When a timer is due that is set now. -/
def Filetime.due (ft : Filetime) (now : ℤ) : ℤ :=
  if ft.quadPart < 0 then now - ft.quadPart else ft.quadPart

/-! ## The words hold the timeout -/

namespace Duration

variable (d : Duration)

/-- The timeout is far from the ends of an `int64_t`. -/
theorem Fits.ticks {d : Duration} (h : d.Fits) : -2 ^ 63 < d.ticks ∧ d.ticks < 2 ^ 63 := by
  have hticks : d.ticks.natAbs ≤ d.nanoseconds.natAbs / 100 := by
    rw [Duration.ticks, Int.natAbs_tdiv]
    rfl
  have hns : d.nanoseconds.natAbs ≤ (d.count * d.factorNum).natAbs :=
    Int.natAbs_tdiv_le_natAbs _ _
  obtain ⟨hlow, hhigh⟩ := h
  omega

end Duration

theorem quadPart_timeoutToFiletime {d : Duration} (h : d.Fits) :
    (timeoutToFiletime d).quadPart = -d.ticks := by
  obtain ⟨hlow, hhigh⟩ := h.ticks
  have hwords : (BitVec.ofInt 64 (-1 * d.ticks)).extractLsb' 32 32 ++
      (BitVec.ofInt 64 (-1 * d.ticks)).extractLsb' 0 32 = BitVec.ofInt 64 (-1 * d.ticks) :=
    BitVec.extractLsb'_append_extractLsb'
  rw [Filetime.quadPart, timeoutToFiletime, hwords,
    BitVec.toInt_ofInt_eq_self (by decide) (by omega) (by omega)]
  exact neg_one_mul _

/-! ## When the timer is due -/

theorem due_eq {d : Duration} (h : d.Fits) (now : ℤ) :
    (timeoutToFiletime d).due now = if 0 < d.ticks then now + d.ticks else -d.ticks := by
  rw [Filetime.due, quadPart_timeoutToFiletime h, sub_neg_eq_add]
  exact if_congr neg_lt_zero rfl rfl

/-- A timer is not due before its timeout is over. -/
theorem le_of_due_le {d : Duration} (h : d.Fits) {now t : ℤ} (hnow : now ≤ t)
    (hdue : (timeoutToFiletime d).due now ≤ t) : now + max 0 d.ticks ≤ t := by
  rw [due_eq h] at hdue
  rcases le_or_gt d.ticks 0 with hle | hlt
  · rw [max_eq_left hle, add_zero]
    exact hnow
  · rw [if_pos hlt] at hdue
    rw [max_eq_right hlt.le]
    exact hdue

/-- 1500 ms. -/
def shortTimeout : Duration := ⟨1500, 1, 1000, by decide⟩

end Coroutines.TimerService
