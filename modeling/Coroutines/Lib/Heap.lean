import Mathlib.Data.Finset.Range
import Mathlib.Data.Finset.Card
import Mathlib.Data.Nat.Notation
import Mathlib.Logic.Function.Basic

/-!
# Heaps

A heap gives an address the object that lives there, if any. Addresses are handed out
in turn, so nothing lives at an address that is still to be handed out. Reading or
writing where nothing lives is undefined.
-/

structure Heap (β : Type*) where
  cells : ℕ → Option β
  /-- The next address to be handed out. -/
  fresh : ℕ
  unused : ∀ a, fresh ≤ a → cells a = none

namespace Heap

open Function

variable {β : Type*}

def empty : Heap β where
  cells := fun _ => none
  fresh := 0
  unused := fun _ _ => rfl

/-- `new`: the address and the heap after it. -/
def alloc (h : Heap β) (x : β) : ℕ × Heap β :=
  (h.fresh, {
    cells := update h.cells h.fresh (some x)
    fresh := h.fresh + 1
    unused := fun a ha => by
      rw [update_of_ne (by omega)]
      exact h.unused a (by omega) })

theorem lt_fresh {h : Heap β} {a : ℕ} {x : β} (ha : h.cells a = some x) : a < h.fresh := by
  by_contra hge
  rw [h.unused a (by omega)] at ha
  cases ha

/-- Change the object at an address in place. -/
def modify (h : Heap β) (a : ℕ) (f : β → β) : Option (Heap β) :=
  match ha : h.cells a with
  | none => none
  | some x => some {
      cells := update h.cells a (some (f x))
      fresh := h.fresh
      unused := fun b hb => by
        have hlt := lt_fresh ha
        rw [update_of_ne (by omega)]
        exact h.unused b hb }

theorem modify_eq {h : Heap β} {a : ℕ} {x : β} (f : β → β) (ha : h.cells a = some x) :
    ∃ h', h.modify a f = some h' ∧ h'.cells = update h.cells a (some (f x)) ∧
      h'.fresh = h.fresh := by
  unfold modify
  split
  · rename_i hnone
    rw [hnone] at ha
    cases ha
  · rename_i y hy
    rw [hy] at ha
    cases ha
    exact ⟨_, rfl, rfl, rfl⟩

/-- `delete`: nothing lives at the address any more, and it is not handed out again. -/
def free (h : Heap β) (a : ℕ) : Heap β where
  cells := update h.cells a none
  fresh := h.fresh
  unused := fun b hb => by
    by_cases hba : b = a
    · rw [hba, update_self]
    · rw [update_of_ne hba]
      exact h.unused b hb

/-- Distinct live addresses are no more than the addresses handed out. -/
theorem length_le_fresh {h : Heap β} {l : List ℕ} (hnd : l.Nodup)
    (hl : ∀ a ∈ l, ∃ x, h.cells a = some x) : l.length ≤ h.fresh := by
  rw [← List.toFinset_card_of_nodup hnd, ← Finset.card_range h.fresh]
  refine Finset.card_le_card fun a ha => ?_
  obtain ⟨x, hx⟩ := hl a (List.mem_toFinset.mp ha)
  exact Finset.mem_range.mpr (lt_fresh hx)

end Heap
