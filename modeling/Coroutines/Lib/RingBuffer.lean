import Mathlib.Data.Nat.ModEq
import Mathlib.Data.Nat.Notation

/-!
# Ring buffers

A ring is an array of slots with two positions: `head`, where the next item goes, and
`tail`, where the oldest one is. `Holds r l` says that the pending items are `l`, oldest
first. A ring that is exactly full has its head on its tail, as an empty one has.
-/

structure RingBuffer (β : Type*) where
  head : ℕ
  tail : ℕ
  slots : List (Option β)
  head_lt : head < slots.length
  tail_lt : tail < slots.length

namespace RingBuffer

variable {β : Type*}

def depth (r : RingBuffer β) : ℕ := r.slots.length

theorem depth_pos (r : RingBuffer β) : 0 < r.depth := Nat.zero_lt_of_lt r.head_lt

/-- The ring with no item stored yet. -/
def new (depth : ℕ) (hpos : 0 < depth) : RingBuffer β where
  head := 0
  tail := 0
  slots := List.replicate depth none
  head_lt := by rwa [List.length_replicate]
  tail_lt := by rwa [List.length_replicate]

def push (r : RingBuffer β) (x : β) : RingBuffer β where
  head := (r.head + 1) % r.depth
  tail := r.tail
  slots := r.slots.set r.head (some x)
  head_lt := by
    rw [List.length_set]
    exact Nat.mod_lt _ r.depth_pos
  tail_lt := by
    rw [List.length_set]
    exact r.tail_lt

/-- The item in the oldest slot; an item never stored there is `none`. -/
def pop (r : RingBuffer β) : Option β × RingBuffer β :=
  (r.slots.get ⟨r.tail, r.tail_lt⟩, {
    head := r.head
    tail := (r.tail + 1) % r.depth
    slots := r.slots
    head_lt := r.head_lt
    tail_lt := Nat.mod_lt _ r.depth_pos })

def tryPop (r : RingBuffer β) : Option β × RingBuffer β :=
  if r.head ≠ r.tail then r.pop else (none, r)

/-- The pending items are `l`, oldest first. -/
structure Holds (r : RingBuffer β) (l : List β) : Prop where
  length : l.length ≤ r.depth
  head : r.head = (r.tail + l.length) % r.depth
  slot : ∀ i x, l[i]? = some x → r.slots[(r.tail + i) % r.depth]? = some (some x)

variable {r : RingBuffer β} {l : List β} {x : β}

@[simp] theorem push_depth (r : RingBuffer β) (x : β) : (r.push x).depth = r.depth :=
  List.length_set

theorem tail_mod (r : RingBuffer β) : r.tail % r.depth = r.tail :=
  Nat.mod_eq_of_lt r.tail_lt

theorem holds_nil (h : r.head = r.tail) : r.Holds [] where
  length := Nat.zero_le _
  head := by
    rw [List.length_nil, Nat.add_zero, r.tail_mod]
    exact h
  slot i x hx := by
    rw [List.getElem?_nil] at hx
    cases hx

/-- Positions less than a full turn apart are different. -/
theorem add_mod_ne {t i j d : ℕ} (hij : i < j) (hjd : j < i + d) :
    (t + i) % d ≠ (t + j) % d := by
  intro h
  have hmod : i ≡ j [MOD d] := Nat.ModEq.add_left_cancel' t h
  have hdvd : d ∣ j - i := (Nat.modEq_iff_dvd' hij.le).mp hmod
  have hle := Nat.le_of_dvd (by omega) hdvd
  omega

/-- **An item goes to the back.** -/
theorem Holds.push (h : r.Holds l) (hlt : l.length < r.depth) (x : β) :
    (r.push x).Holds (l ++ [x]) := by
  refine ⟨?_, ?_, fun i y hy => ?_⟩
  · rw [push_depth, List.length_append]
    exact hlt
  · rw [push_depth, List.length_append, List.length_singleton]
    show (r.head + 1) % r.depth = (r.tail + (l.length + 1)) % r.depth
    rw [h.head, Nat.mod_add_mod, Nat.add_assoc]
  · rw [push_depth]
    show (r.slots.set r.head (some x))[(r.tail + i) % r.depth]? = some (some y)
    rcases Nat.lt_trichotomy i l.length with hi | hi | hi
    · rw [List.getElem?_append_left hi] at hy
      have hne : r.head ≠ (r.tail + i) % r.depth := by
        rw [h.head]
        exact (add_mod_ne hi (by omega)).symm
      rw [List.getElem?_set_ne hne]
      exact h.slot i y hy
    · subst hi
      rw [List.getElem?_append_right (Nat.le_refl _), Nat.sub_self] at hy
      cases hy
      rw [← h.head, List.getElem?_set_self r.head_lt]
    · rw [List.getElem?_eq_none (by rw [List.length_append]; exact hi)] at hy
      cases hy

theorem Holds.head_eq_of_full (h : r.Holds l) (hfull : l.length = r.depth) :
    r.head = r.tail := by
  rw [h.head, hfull, Nat.add_mod_right, r.tail_mod]

/-- **A full ring forgets.** One more item goes over the oldest one, and the ring then
looks as if that item were all it had. -/
theorem Holds.push_full (h : r.Holds l) (hfull : l.length = r.depth) (x : β) :
    (r.push x).Holds [x] := by
  have hhead := h.head_eq_of_full hfull
  refine ⟨?_, ?_, fun i y hy => ?_⟩
  · rw [push_depth]
    exact r.depth_pos
  · rw [push_depth]
    show (r.head + 1) % r.depth = (r.tail + 1) % r.depth
    rw [hhead]
  · rcases i with _ | i
    · cases hy
      rw [push_depth, Nat.add_zero]
      show (r.slots.set r.head (some x))[r.tail % r.depth]? = some (some x)
      rw [r.tail_mod, ← hhead, List.getElem?_set_self r.head_lt]
    · rw [List.getElem?_cons_succ, List.getElem?_nil] at hy
      cases hy

/-- **The oldest item comes out.** -/
theorem Holds.pop (h : r.Holds (x :: l)) :
    ∃ r', r.pop = (some x, r') ∧ r'.Holds l ∧ r'.depth = r.depth := by
  have hslot := h.slot 0 x rfl
  rw [Nat.add_zero, r.tail_mod, List.getElem?_eq_getElem r.tail_lt] at hslot
  refine ⟨r.pop.2, ?_, ⟨?_, ?_, fun i y hy => ?_⟩, rfl⟩
  · rw [← Option.some.inj hslot]
    rfl
  · exact Nat.le_of_succ_le h.length
  · show r.head = ((r.tail + 1) % r.depth + l.length) % r.depth
    rw [Nat.mod_add_mod, Nat.add_assoc, Nat.add_comm 1]
    exact h.head
  · show r.slots[((r.tail + 1) % r.depth + i) % r.depth]? = some (some y)
    rw [Nat.mod_add_mod, Nat.add_assoc, Nat.add_comm 1]
    exact h.slot (i + 1) y hy

theorem Holds.tryPop_nil (h : r.Holds []) : r.tryPop = (none, r) := by
  have heq : r.head = r.tail := by
    have hhead := h.head
    rwa [List.length_nil, Nat.add_zero, r.tail_mod] at hhead
  exact if_neg (not_not.mpr heq)

/-- A full ring is taken for an empty one. -/
theorem Holds.tryPop_full (h : r.Holds l) (hfull : l.length = r.depth) :
    r.tryPop = (none, r) :=
  if_neg (not_not.mpr (h.head_eq_of_full hfull))

theorem Holds.tryPop_cons (h : r.Holds (x :: l)) (hlt : (x :: l).length < r.depth) :
    r.tryPop = r.pop := by
  apply if_pos
  rw [h.head]
  have hne := add_mod_ne (t := r.tail) (i := 0) (j := (x :: l).length) (d := r.depth)
    (Nat.succ_pos _) (by omega)
  rw [Nat.add_zero, r.tail_mod] at hne
  exact hne.symm

end RingBuffer
