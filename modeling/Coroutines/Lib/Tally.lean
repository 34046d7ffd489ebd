import Mathlib.Algebra.BigOperators.Group.Finset.Piecewise
import Mathlib.Algebra.GroupWithZero.Nat
import Mathlib.Algebra.Order.BigOperators.Group.Finset
import Mathlib.Algebra.Order.BigOperators.Group.List
import Mathlib.Logic.Function.Basic

/-!
# Counting parties by their state

`tally n p f` is the number of parties `i < n` whose state `f i` satisfies `p`, and
`total n w f` the sum of the weights of their states. When one party moves, both change by
what that party contributed before and what it contributes now. `weigh f l` adds up the
weights of the entries of a list, for parties that are kept in one.
-/

namespace Tally

open Function Finset

variable {α : Type*}

def total (n : ℕ) (w : α → ℕ) (f : ℕ → α) : ℕ :=
  ∑ i ∈ range n, w (f i)

def tally (n : ℕ) (p : α → Prop) [DecidablePred p] (f : ℕ → α) : ℕ :=
  ∑ i ∈ range n, if p (f i) then 1 else 0

variable {n : ℕ} {p : α → Prop} [DecidablePred p] {f : ℕ → α}

/-- **One party moves**, among parties with weights. -/
theorem total_update {w : α → ℕ} {i : ℕ} (hi : i < n) (x : α) :
    total n w (update f i x) + w (f i) = total n w f + w x := by
  unfold total
  have hmem : i ∈ range n := mem_range.mpr hi
  rw [← add_sum_erase _ _ hmem, ← add_sum_erase _ (fun j => w (f j)) hmem]
  have hrest : ∑ j ∈ (range n).erase i, w (update f i x j) =
      ∑ j ∈ (range n).erase i, w (f j) := by
    refine sum_congr rfl fun j hj => ?_
    rw [update_of_ne (ne_of_mem_erase hj)]
  rw [hrest, update_self]
  omega

theorem total_eq_zero_iff {w : α → ℕ} : total n w f = 0 ↔ ∀ i < n, w (f i) = 0 := by
  unfold total
  rw [sum_eq_zero_iff]
  exact forall_congr' fun i => by rw [mem_range]

/-- **One party moves.** -/
theorem tally_update {i : ℕ} (hi : i < n) (x : α) :
    tally n p (update f i x) + (if p (f i) then 1 else 0) =
      tally n p f + (if p x then 1 else 0) :=
  total_update (w := fun y => if p y then 1 else 0) hi x

/-- A party that moves from outside `p` to outside `p` does not count. -/
theorem tally_update_of_not {i : ℕ} {x : α} (hi : i < n) (hf : ¬ p (f i)) (hx : ¬ p x) :
    tally n p (update f i x) = tally n p f := by
  have h := tally_update (p := p) (f := f) hi x
  simpa [hf, hx] using h

theorem tally_eq_zero_iff : tally n p f = 0 ↔ ∀ i < n, ¬ p (f i) := by
  have hzero : tally n p f = 0 ↔ ∀ i < n, (if p (f i) then 1 else 0) = 0 :=
    total_eq_zero_iff (w := fun x => if p x then 1 else 0)
  simpa using hzero

/-- A party outside `p` is not counted. -/
theorem tally_lt {i : ℕ} (hi : i < n) (hnot : ¬ p (f i)) : tally n p f < n := by
  have hle : tally n p f < ∑ _j ∈ range n, 1 := by
    refine sum_lt_sum (fun j _ => ?_) ⟨i, mem_range.mpr hi, ?_⟩
    · split
      · exact le_refl 1
      · exact Nat.zero_le 1
    · rw [if_neg hnot]
      exact Nat.one_pos
  simpa using hle

theorem tally_eq_of_forall (h : ∀ i < n, p (f i)) : tally n p f = n := by
  unfold tally
  rw [sum_congr rfl fun i hi => if_pos (h i (mem_range.mp hi))]
  simp

/-! ## Weights in a list -/

def weigh (w : α → ℕ) (l : List α) : ℕ := (l.map w).sum

variable {w : α → ℕ} {l : List α}

@[simp] theorem weigh_nil : weigh w [] = 0 := rfl

@[simp] theorem weigh_cons (a : α) : weigh w (a :: l) = w a + weigh w l := List.sum_cons

@[simp] theorem weigh_append (m : List α) : weigh w (l ++ m) = weigh w l + weigh w m := by
  rw [weigh, List.map_append, List.sum_append]
  rfl

/-- **One entry is replaced.** -/
theorem weigh_set {i : ℕ} {a : α} (h : l[i]? = some a) (b : α) :
    weigh w (l.set i b) + w a = weigh w l + w b := by
  obtain ⟨hi, rfl⟩ := List.getElem?_eq_some_iff.mp h
  have hi' : i < (l.map w).length := by simpa using hi
  have hold := List.sum_set (l.map w) i (w l[i])
  have hnew := List.sum_set (l.map w) i (w b)
  have hsame : (l.map w).set i (w l[i]) = l.map w := by
    rw [← List.map_set, List.set_getElem_self]
  rw [hsame, if_pos hi'] at hold
  rw [if_pos hi'] at hnew
  rw [weigh, weigh, List.map_set]
  omega

/-- **One entry is taken out.** -/
theorem weigh_erase [DecidableEq α] {a : α} (h : a ∈ l) :
    weigh w (l.erase a) + w a = weigh w l :=
  (Nat.add_comm _ _).trans (List.sum_map_erase w h)

theorem weigh_filter (p : α → Bool) :
    weigh w (l.filter p) + weigh w (l.filter fun a => !p a) = weigh w l := by
  simpa [weigh] using List.sum_map_filter_add_sum_map_filter_not (fun a => p a = true) w l

theorem le_weigh {a : α} (h : a ∈ l) : w a ≤ weigh w l :=
  List.le_sum_of_mem (List.mem_map_of_mem h)

theorem weigh_mono {v : α → ℕ} (h : ∀ a, v a ≤ w a) : weigh v l ≤ weigh w l :=
  List.sum_le_sum fun a _ => h a

theorem weigh_le {b : ℕ} (h : ∀ a ∈ l, w a ≤ b) : weigh w l ≤ l.length * b := by
  have hle := List.sum_le_card_nsmul (l.map w) b (List.forall_mem_map.mpr h)
  rw [List.length_map] at hle
  exact hle

theorem weigh_eq_zero (h : ∀ a ∈ l, w a = 0) : weigh w l = 0 :=
  List.sum_eq_zero (List.forall_mem_map.mpr h)

end Tally
