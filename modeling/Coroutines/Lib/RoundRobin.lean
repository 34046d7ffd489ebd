import Mathlib.Data.List.Induction
import Mathlib.Data.List.Nodup
import Mathlib.Data.Nat.Notation
import Mathlib.Tactic.Common

/-!
# Taking turns

Tasks of different lengths share a queue with room for `n` of them. The task at the front takes a
turn and goes to the back, or is finished with its last one. A task is accepted when there is room;
when there is none, turns are taken until one is finished.

What this does to the order is bounded from both sides. The task that is finished as the `j`-th is
among the first `j + n` that came, and a task that takes `k` turns before its last one is overtaken
at most `(n - 1) * k` times.
-/

namespace RoundRobin

variable {α : Type*}

/-- The tasks that wait, the next one first, each with the turns it takes before its last one. -/
abbrev Queue (α : Type*) := List (α × ℕ)

/-- The turns that are left. -/
def work : Queue α → ℕ
  | [] => 0
  | task :: q => task.2 + 1 + work q

def finishWithin : ℕ → Queue α → Option (α × Queue α)
  | 0, _ => none
  | _ + 1, [] => none
  | _ + 1, (a, 0) :: q => some (a, q)
  | fuel + 1, (a, k + 1) :: q => finishWithin fuel (q ++ [(a, k)])

/-- Turns are taken until a task is finished. -/
def finish (q : Queue α) : Option (α × Queue α) := finishWithin (work q) q

/-- A task comes; the second component is what has been finished, in this order. -/
def accept (n : ℕ) (s : Queue α × List α) (task : α × ℕ) : Queue α × List α :=
  if s.1.length < n then (s.1 ++ [task], s.2)
  else
    match finish s.1 with
    | some (a, q) => (q ++ [task], s.2 ++ [a])
    | none => s

/-- The next `m` tasks that are finished. -/
def drain : ℕ → Queue α → List α
  | 0, _ => []
  | m + 1, q =>
      match finish q with
      | some (a, q') => a :: drain m q'
      | none => []

/-- The order in which the tasks are finished, where there is room for `n`. -/
def order (n : ℕ) (tasks : List (α × ℕ)) : List α :=
  let s := tasks.foldl (accept n) ([], [])
  s.2 ++ drain s.1.length s.1

/-- Tasks by their number. -/
def numbered (turns : List ℕ) : List (ℕ × ℕ) := turns.zipIdx.map Prod.swap

example : order 2 (numbered [2, 0, 1, 0]) = [1, 0, 2, 3] := by decide

/-! ## One task is finished -/

variable {a : α} {k n m : ℕ} {q : Queue α}

theorem work_append (q q' : Queue α) : work (q ++ q') = work q + work q' := by
  induction q with
  | nil => rw [List.nil_append, work, Nat.zero_add]
  | cons task q ih => rw [List.cons_append, work, work, ih, ← Nat.add_assoc]

theorem work_turn (a : α) (k : ℕ) (q : Queue α) :
    work ((a, k + 1) :: q) = work (q ++ [(a, k)]) + 1 := by
  rw [work_append, work, work, work]
  omega

@[simp] theorem finish_nil : finish ([] : Queue α) = none := rfl

@[simp] theorem finish_last (a : α) (q : Queue α) : finish ((a, 0) :: q) = some (a, q) := by
  rw [finish, work, Nat.add_right_comm]
  rfl

@[simp] theorem finish_turn (a : α) (k : ℕ) (q : Queue α) :
    finish ((a, k + 1) :: q) = finish (q ++ [(a, k)]) := by
  rw [finish, work_turn]
  rfl

/-- **The rule for taking turns**: what every turn keeps holds when a task takes its last one. -/
theorem finish_rule {I : Queue α → Prop} (hturn : ∀ a k q, I ((a, k + 1) :: q) → I (q ++ [(a, k)]))
    (hne : q ≠ []) (h : I q) : ∃ a q', finish q = some (a, q') ∧ I ((a, 0) :: q') := by
  induction hwork : work q using Nat.strongRecOn generalizing q with
  | ind w ih =>
      obtain ⟨⟨a, k⟩, q, rfl⟩ := List.exists_cons_of_ne_nil hne
      cases k with
      | zero => exact ⟨a, q, finish_last a q, h⟩
      | succ k =>
          rw [finish_turn]
          rw [work_turn] at hwork
          exact ih _ (by omega) (by simp) (hturn a k q h) rfl

/-- No task is lost, and none comes in. -/
theorem finish_perm (hne : q ≠ []) :
    ∃ a q', finish q = some (a, q') ∧ (a :: q'.map Prod.fst).Perm (q.map Prod.fst) := by
  refine finish_rule (I := fun q' => (q'.map Prod.fst).Perm (q.map Prod.fst)) ?_ hne (.refl _)
  intro a k q' hperm
  rw [List.map_append, List.map_singleton]
  exact (List.perm_append_singleton _ _).trans hperm

/-! ## All tasks -/

/-- An entry of a list that has grown is an old one or the new one. -/
theorem getElem?_snoc {β : Type*} {l : List β} {x y : β} {i : ℕ} (h : (l ++ [x])[i]? = some y) :
    l[i]? = some y ∨ i = l.length ∧ y = x := by
  rcases Nat.lt_or_ge i l.length with hlt | hge
  · rw [List.getElem?_append_left hlt] at h
    exact Or.inl h
  · rw [List.getElem?_append_right hge, List.getElem?_singleton] at h
    obtain ⟨hzero, hx⟩ := Option.ite_none_right_eq_some.mp h
    exact Or.inr ⟨by omega, (Option.some.inj hx).symm⟩

/-- What is known of the queue and of what was finished when `tasks` have been accepted. -/
structure Served (n : ℕ) (tasks : List (α × ℕ)) (s : Queue α × List α) : Prop where
  room : s.1.length ≤ n
  perm : (s.2 ++ s.1.map Prod.fst).Perm (tasks.map Prod.fst)
  early : ∀ j a, s.2[j]? = some a → a ∈ (tasks.take (j + n)).map Prod.fst
  late : ∀ i a k, tasks[i]? = some (a, k) →
    (∀ j, s.2[j]? = some a → j ≤ i + (n - 1) * k) ∧
      ∀ p r, s.1[p]? = some (a, r) → s.2.length + p + (n - 1) * r ≤ i + (n - 1) * k

section
variable {tasks : List (α × ℕ)} {s : Queue α × List α}

theorem Served.length (h : Served n tasks s) : s.2.length + s.1.length = tasks.length := by
  have hperm := h.perm.length_eq
  rwa [List.length_append, List.length_map, List.length_map] at hperm

/-- The queue `q` while turns are taken that began in `s`. -/
structure Turning (n : ℕ) (tasks : List (α × ℕ)) (s : Queue α × List α) (q : Queue α) : Prop where
  length : q.length = s.1.length
  perm : (q.map Prod.fst).Perm (s.1.map Prod.fst)
  late : ∀ i a k p r, tasks[i]? = some (a, k) → q[p]? = some (a, r) →
    s.2.length + p + (n - 1) * r ≤ i + (n - 1) * k

/-- **Whoever goes to the back** has used up a turn for the others that are now before it. -/
theorem Turning.turn (hroom : s.1.length ≤ n) (h : Turning n tasks s ((a, k + 1) :: q)) :
    Turning n tasks s (q ++ [(a, k)]) := by
  have hlength := h.length
  rw [List.length_cons] at hlength
  refine ⟨?_, ?_, ?_⟩
  · rw [List.length_append, List.length_singleton]
    exact hlength
  · rw [List.map_append, List.map_singleton]
    exact (List.perm_append_singleton _ _).trans h.perm
  · intro i b k' p r hi hp
    rcases getElem?_snoc hp with hp | ⟨rfl, heq⟩
    · have hbound := h.late i b k' (p + 1) r hi (by rw [List.getElem?_cons_succ]; exact hp)
      omega
    · obtain ⟨rfl, rfl⟩ := Prod.mk.inj heq
      have hbound := h.late i b k' 0 (r + 1) hi rfl
      rw [Nat.mul_succ] at hbound
      omega

/-- **One more is finished**, of the tasks that were accepted. -/
theorem Served.finish (h : Served n tasks s) (hne : s.1 ≠ []) :
    ∃ a q, RoundRobin.finish s.1 = some (a, q) ∧ q.length + 1 = s.1.length ∧
      Served n tasks (q, s.2 ++ [a]) := by
  have hroom := h.room
  have hstart : Turning n tasks s s.1 :=
    ⟨rfl, .refl _, fun i a k p r hi hp => (h.late i a k hi).2 p r hp⟩
  obtain ⟨a, q, hfinish, hlength, hperm, hlate⟩ :=
    finish_rule (fun a k q hq => Turning.turn hroom hq) hne hstart
  have hnow : (s.2 ++ [a] ++ q.map Prod.fst).Perm (tasks.map Prod.fst) := by
    rw [List.append_assoc]
    exact (List.Perm.append_left s.2 hperm).trans h.perm
  refine ⟨a, q, hfinish, hlength, ?_, hnow, ?_, ?_⟩
  · rw [List.length_cons] at hlength
    show q.length ≤ n
    omega
  · intro j b hj
    have hb : b ∈ s.2 ++ [a] := List.mem_of_getElem? hj
    rcases getElem?_snoc hj with hj | ⟨rfl, -⟩
    · exact h.early j b hj
    · have hlength' := h.length
      rw [List.take_of_length_le (by omega)]
      exact hnow.mem_iff.mp (List.mem_append_left _ hb)
  · intro i b k hi
    constructor
    · intro j hj
      rcases getElem?_snoc hj with hj | ⟨rfl, rfl⟩
      · exact (h.late i b k hi).1 j hj
      · have hbound := hlate i b k 0 0 hi rfl
        omega
    · intro p r hp
      have hbound := hlate i b k (p + 1) r hi (by rw [List.getElem?_cons_succ]; exact hp)
      rw [List.length_append, List.length_singleton]
      omega

/-- **A task is accepted** where there is room. -/
theorem Served.push (h : Served n tasks s) (hroom : s.1.length < n) (task : α × ℕ)
    (hnew : task.1 ∉ tasks.map Prod.fst) : Served n (tasks ++ [task]) (s.1 ++ [task], s.2) := by
  have hlength := h.length
  have hnot : task.1 ∉ s.2 ++ s.1.map Prod.fst := fun hmem => hnew (h.perm.mem_iff.mp hmem)
  refine ⟨?_, ?_, ?_, ?_⟩
  · rw [List.length_append, List.length_singleton]
    exact hroom
  · rw [List.map_append, List.map_append, ← List.append_assoc]
    exact h.perm.append_right _
  · intro j a hj
    rw [List.take_append, List.map_append]
    exact List.mem_append_left _ (h.early j a hj)
  · intro i a k hi
    rcases getElem?_snoc hi with hi | ⟨rfl, rfl⟩
    · have hold : a ≠ task.1 := by
        rintro rfl
        exact hnew (List.mem_map.mpr ⟨_, List.mem_of_getElem? hi, rfl⟩)
      refine ⟨(h.late i a k hi).1, fun p r hp => ?_⟩
      rcases getElem?_snoc hp with hp | ⟨-, heq⟩
      · exact (h.late i a k hi).2 p r hp
      · exact absurd (congrArg Prod.fst heq) hold
    · constructor
      · intro j hj
        exact absurd (List.mem_append_left _ (List.mem_of_getElem? hj)) hnot
      · intro p r hp
        rcases getElem?_snoc hp with hp | ⟨rfl, heq⟩
        · have hmem : a ∈ s.1.map Prod.fst := List.mem_map.mpr ⟨_, List.mem_of_getElem? hp, rfl⟩
          exact absurd (List.mem_append_right _ hmem) hnot
        · obtain ⟨-, rfl⟩ := Prod.mk.inj heq
          show s.2.length + s.1.length + _ ≤ _
          omega

theorem Served.accept (h : Served n tasks s) (hn : 1 ≤ n) (task : α × ℕ)
    (hnew : task.1 ∉ tasks.map Prod.fst) :
    Served n (tasks ++ [task]) (RoundRobin.accept n s task) := by
  unfold RoundRobin.accept
  split
  · rename_i hroom
    exact h.push hroom task hnew
  · rename_i hfull
    obtain ⟨a, q, hfinish, hlength, hserved⟩ := h.finish (by
      intro hnil
      rw [hnil, List.length_nil] at hfull
      omega)
    rw [hfinish]
    refine hserved.push ?_ task hnew
    have hroom := h.room
    show q.length < n
    omega

theorem Served.drain (h : Served n tasks s) {m : ℕ} (hm : s.1.length = m) :
    Served n tasks ([], s.2 ++ RoundRobin.drain m s.1) := by
  induction m generalizing s with
  | zero =>
      rw [RoundRobin.drain, List.append_nil, ← List.length_eq_zero_iff.mp hm]
      exact h
  | succ m ih =>
      obtain ⟨a, q, hfinish, hlength, hserved⟩ := h.finish (by
        intro hnil
        rw [hnil] at hm
        cases hm)
      have hrest := ih hserved (show q.length = m by omega)
      rw [RoundRobin.drain, hfinish, List.append_cons]
      exact hrest

end

theorem numbered_append (turns : List ℕ) (k : ℕ) :
    numbered (turns ++ [k]) = numbered turns ++ [(turns.length, k)] := by
  rw [numbered, List.zipIdx_append, List.map_append, Nat.zero_add]
  rfl

end RoundRobin
