import Coroutines.Lib.Transition
import Coroutines.Lib.Tally

/-!
# The reference count of when_all

`algorithms/when-all/when_all.hpp`. `when_all_awaiter::await_suspend` starts the
`n` subtasks one after the other and then calls `counter::try_await`; a subtask that
reaches its final suspend calls `counter::notify_task_completion`. The counter
starts at `n + 1`, and whoever takes it from one to zero lets the awaiting coroutine
go on: `try_await` by returning false, a notification by resuming the stored handle.

A subtask may complete inside its own `start` or on any thread at any later time, so
each subtask is a party of its own. The counter is an integer here: that it never
wraps below zero is a result.
-/

namespace Coroutines.WhenAll

open Transition Tally Function

/-! ## The model -/

/-- Where one subtask stands. -/
inductive SubPc
  | idle
  | running
  | notify     -- at its final suspend, before the `fetch_sub`
  | resume     -- the `fetch_sub` returned one
  | done
deriving DecidableEq

/-- Where `await_suspend` of the awaiting coroutine stands. -/
inductive AwaiterPc
  | start (i : ℕ)      -- at the head of the loop
  | starting (i : ℕ)   -- inside `tasks[i].start(remaining)`
  | storeCoro          -- in `try_await`
  | fetchSub
  | suspended
  | running            -- past the `co_await`
deriving DecidableEq

/-- How the awaiting coroutine came to go on. -/
inductive Route
  | notSuspended
  | resumedBy (i : ℕ)
deriving DecidableEq

structure State where
  /-- `counter::count`. -/
  count : ℤ
  /-- Whether `counter::awaiting_coro` holds the handle. -/
  awaitingCoro : Bool
  sub : ℕ → SubPc
  awaiter : AwaiterPc
  /-- History: each time the awaiting coroutine went on. -/
  routes : List Route

/-- What moves next. -/
inductive Act
  | awaiter
  | complete (i : ℕ)
  | notify (i : ℕ)
  | resume (i : ℕ)
deriving DecidableEq

/-- `when_all_awaiter` over `n` tasks, awaited. -/
def initial (n : ℕ) : State where
  count := n + 1
  awaitingCoro := false
  sub := fun _ => .idle
  awaiter := .start 0
  routes := []

/-- One step of `when_all_awaiter::await_suspend`. -/
def awaiterStep (n : ℕ) (s : State) : Option State :=
  match s.awaiter with
  | .start i =>
      if i < n then
        some { s with sub := update s.sub i .running, awaiter := .starting i }
      else some { s with awaiter := .storeCoro }
  -- the subtask suspended, or completed right away
  | .starting i => some { s with awaiter := .start (i + 1) }
  | .storeCoro => some { s with awaitingCoro := true, awaiter := .fetchSub }
  | .fetchSub =>
      if 1 < s.count then some { s with count := s.count - 1, awaiter := .suspended }
      else some { s with
        count := s.count - 1
        awaiter := .running
        routes := s.routes ++ [.notSuspended] }
  | .suspended => none
  | .running => none

/-- `counter::notify_task_completion`, up to its `fetch_sub`. -/
def notifyStep (s : State) (i : ℕ) : Option State :=
  if s.sub i = .notify then
    some { s with
      count := s.count - 1
      sub := update s.sub i (if s.count = 1 then .resume else .done) }
  else none

/-- `awaiting_coro.resume()`. -/
def resumeStep (s : State) (i : ℕ) : Option State :=
  if s.sub i = .resume then
    some { s with
      sub := update s.sub i .done
      awaiter := .running
      routes := s.routes ++ [.resumedBy i] }
  else none

def step (n : ℕ) (s : State) : Act → Option State
  | .awaiter => awaiterStep n s
  | .complete i =>
      if i < n ∧ s.sub i = .running then some { s with sub := update s.sub i .notify }
      else none
  | .notify i => if i < n then notifyStep s i else none
  | .resume i => if i < n then resumeStep s i else none

def system (n : ℕ) : System State Act where
  Init s := s = initial n
  step := step n

/-! ## Who still counts -/

/-- The subtask has its `fetch_sub` still to come. -/
def SubPc.Pending : SubPc → Prop
  | .idle | .running | .notify => True
  | .resume | .done => False

instance : DecidablePred SubPc.Pending
  | .idle | .running | .notify => isTrue trivial
  | .resume | .done => isFalse id

/-- `await_suspend` has its `fetch_sub` still to come. -/
def AwaiterPc.Pending : AwaiterPc → Prop
  | .suspended | .running => False
  | _ => True

instance : DecidablePred AwaiterPc.Pending
  | .suspended | .running => isFalse id
  | .start _ | .starting _ | .storeCoro | .fetchSub => isTrue trivial

/-- The count is what is still to be subtracted, and at zero there is exactly one
permission to go on: given to a notification, or used. -/
structure Inv (n : ℕ) (s : State) : Prop where
  count : s.count = (if s.awaiter.Pending then 1 else 0) + (tally n SubPc.Pending s.sub : ℤ)
  permission : tally n (· = .resume) s.sub + s.routes.length = if s.count = 0 then 1 else 0
  fresh : ∀ i, s.awaiter = .start i → ∀ j, i ≤ j → s.sub j = .idle
  fresh' : ∀ i, s.awaiter = .starting i → ∀ j, i < j → s.sub j = .idle
  stored : s.awaiter = .fetchSub ∨ ¬ s.awaiter.Pending → s.awaitingCoro = true
  running : s.awaiter = .running ↔ s.routes ≠ []

theorem initial_inv (n : ℕ) : Inv n (initial n) where
  count := by
    have h : tally n SubPc.Pending (initial n).sub = n := tally_eq_of_forall fun _ _ => trivial
    rw [h]
    simp [initial, AwaiterPc.Pending, add_comm]
  permission := by
    have h : tally n (· = .resume) (initial n).sub = 0 :=
      tally_eq_zero_iff.mpr fun _ _ => by simp [initial]
    rw [h]
    have hn : ((n : ℤ) + 1) ≠ 0 := by omega
    simp [initial, hn]
  fresh _ _ _ _ := rfl
  fresh' _ h := by simp [initial] at h
  stored h := by simp [initial, AwaiterPc.Pending] at h
  running := by simp [initial]

/-- While `await_suspend` has not subtracted, nobody may go on. -/
theorem Inv.no_routes {n : ℕ} {s : State} (h : Inv n s) (hp : s.awaiter.Pending) :
    s.routes = [] := by
  have hc := h.count
  have hperm := h.permission
  rw [if_pos hp] at hc
  rw [if_neg (by omega)] at hperm
  exact List.length_eq_zero_iff.mp (by omega)

/-- `await_suspend` moves on without touching the counter. -/
theorem Inv.goAwaiter {n : ℕ} {s : State} (h : Inv n s) {pc : AwaiterPc} (stored : Bool)
    (hp : s.awaiter.Pending) (hpc : pc.Pending)
    (hfresh : ∀ i, pc = .start i → ∀ j, i ≤ j → s.sub j = .idle)
    (hstarting : ∀ i, pc ≠ .starting i) (hstored : pc = .fetchSub → stored = true) :
    Inv n { s with awaiter := pc, awaitingCoro := stored } := by
  have hc := h.count
  rw [if_pos hp] at hc
  constructor
  case count =>
    rw [if_pos hpc]
    exact hc
  case permission => exact h.permission
  case fresh => exact hfresh
  case fresh' => exact fun i hi => absurd hi (hstarting i)
  case stored =>
    rintro (hs | hs)
    · exact hstored hs
    · exact absurd hpc hs
  case running =>
    have hr := h.no_routes hp
    constructor
    · rintro rfl
      exact absurd hpc id
    · intro hne
      exact absurd hr hne

theorem Inv.startTask {n : ℕ} {s : State} (h : Inv n s) {i : ℕ} (hi : i < n)
    (hpc : s.awaiter = .start i) :
    Inv n { s with sub := update s.sub i .running, awaiter := .starting i } := by
  have hidle : s.sub i = .idle := h.fresh i hpc i (Nat.le_refl i)
  have hp : s.awaiter.Pending := by
    rw [hpc]
    trivial
  have hpend : tally n SubPc.Pending (update s.sub i .running) =
      tally n SubPc.Pending s.sub := by
    have ht := tally_update (p := SubPc.Pending) (f := s.sub) hi .running
    simpa [hidle, SubPc.Pending] using ht
  have hres : tally n (· = .resume) (update s.sub i .running) =
      tally n (· = .resume) s.sub :=
    tally_update_of_not hi (by simp [hidle]) (by simp)
  constructor
  case count =>
    have hc := h.count
    rw [if_pos hp] at hc
    show s.count = (if AwaiterPc.Pending (.starting i) then 1 else 0) +
      (tally n SubPc.Pending (update s.sub i .running) : ℤ)
    rw [hpend]
    exact hc
  case permission =>
    show tally n (· = .resume) (update s.sub i .running) + _ = _
    rw [hres]
    exact h.permission
  case fresh =>
    intro j hj
    cases hj
  case fresh' =>
    intro j hj k hk
    cases hj
    show update s.sub i .running k = .idle
    rw [update_of_ne (by omega)]
    exact h.fresh i hpc k (by omega)
  case stored =>
    rintro (hs | hs)
    · cases hs
    · exact absurd trivial hs
  case running =>
    have hr := h.no_routes hp
    constructor
    · intro hs
      cases hs
    · intro hne
      exact absurd hr hne

/-- The `fetch_sub` of `try_await`. -/
theorem Inv.tryAwait {n : ℕ} {s : State} (h : Inv n s) (hpc : s.awaiter = .fetchSub) :
    (1 < s.count → Inv n { s with count := s.count - 1, awaiter := .suspended }) ∧
    (¬ 1 < s.count → Inv n { s with
      count := s.count - 1
      awaiter := .running
      routes := s.routes ++ [.notSuspended] }) := by
  have hp : s.awaiter.Pending := by
    rw [hpc]
    trivial
  have hc := h.count
  have hperm := h.permission
  have hr := h.no_routes hp
  have hst := h.stored (Or.inl hpc)
  rw [if_pos hp] at hc
  rw [if_neg (by omega), hr, List.length_nil, Nat.add_zero] at hperm
  have hcount : s.count - 1 = 0 + (tally n SubPc.Pending s.sub : ℤ) := by omega
  constructor
  · intro hlt
    constructor
    case count =>
      rw [if_neg (by simp [AwaiterPc.Pending])]
      exact hcount
    case permission =>
      rw [if_neg (by show ¬ s.count - 1 = 0; omega)]
      show tally n (· = .resume) s.sub + s.routes.length = 0
      rw [hperm, hr]
      rfl
    case fresh =>
      intro j hj
      cases hj
    case fresh' =>
      intro j hj
      cases hj
    case stored => exact fun _ => hst
    case running => simp [hr]
  · intro hge
    constructor
    case count =>
      rw [if_neg (by simp [AwaiterPc.Pending])]
      exact hcount
    case permission =>
      rw [if_pos (by show s.count - 1 = 0; omega)]
      show tally n (· = .resume) s.sub + (s.routes ++ [Route.notSuspended]).length = 1
      rw [hperm, hr]
      rfl
    case fresh =>
      intro j hj
      cases hj
    case fresh' =>
      intro j hj
      cases hj
    case stored => exact fun _ => hst
    case running => simp

theorem awaiterStep_inv {n : ℕ} {s s' : State} (h : Inv n s)
    (hs : awaiterStep n s = some s') : Inv n s' := by
  unfold awaiterStep at hs
  split at hs
  · rename_i i hpc
    split at hs
    · rename_i hi
      cases hs
      exact h.startTask hi hpc
    · cases hs
      exact h.goAwaiter s.awaitingCoro (by rw [hpc]; trivial) trivial (by simp)
        (by simp) (by simp)
  · rename_i i hpc
    cases hs
    refine h.goAwaiter s.awaitingCoro (by rw [hpc]; trivial) trivial ?_ (by simp) (by simp)
    intro j hj k hk
    cases hj
    exact h.fresh' i hpc k hk
  · rename_i hpc
    cases hs
    exact h.goAwaiter true (by rw [hpc]; trivial) trivial (by simp) (by simp) (by simp)
  · rename_i hpc
    split at hs
    · rename_i hlt
      cases hs
      exact (h.tryAwait hpc).1 hlt
    · rename_i hge
      cases hs
      exact (h.tryAwait hpc).2 hge
  · cases hs
  · cases hs

/-- A subtask that has not been started is not the one that moves. -/
theorem idle_update {sub : ℕ → SubPc} {i k : ℕ} (hi : sub i ≠ .idle) (hk : sub k = .idle)
    (pc : SubPc) : update sub i pc k = .idle := by
  rw [update_of_ne]
  · exact hk
  · rintro rfl
    exact hi hk

/-- A started subtask completes. -/
theorem Inv.complete {n : ℕ} {s : State} (h : Inv n s) {i : ℕ} (hi : i < n)
    (hpc : s.sub i = .running) : Inv n { s with sub := update s.sub i .notify } := by
  have hidle : s.sub i ≠ .idle := by simp [hpc]
  have hpend : tally n SubPc.Pending (update s.sub i .notify) =
      tally n SubPc.Pending s.sub := by
    have ht := tally_update (p := SubPc.Pending) (f := s.sub) hi .notify
    simpa [hpc, SubPc.Pending] using ht
  have hres : tally n (· = .resume) (update s.sub i .notify) =
      tally n (· = .resume) s.sub :=
    tally_update_of_not hi (by simp [hpc]) (by simp)
  constructor
  case count =>
    show s.count = _ + (tally n SubPc.Pending (update s.sub i .notify) : ℤ)
    rw [hpend]
    exact h.count
  case permission =>
    show tally n (· = .resume) (update s.sub i .notify) + _ = _
    rw [hres]
    exact h.permission
  case fresh => exact fun j hj k hk => idle_update hidle (h.fresh j hj k hk) _
  case fresh' => exact fun j hj k hk => idle_update hidle (h.fresh' j hj k hk) _
  case stored => exact h.stored
  case running => exact h.running

theorem notifyStep_inv {n : ℕ} {s s' : State} {i : ℕ} (h : Inv n s) (hi : i < n)
    (hs : notifyStep s i = some s') : Inv n s' := by
  unfold notifyStep at hs
  split at hs
  · rename_i hpc
    cases hs
    have hc := h.count
    have hperm := h.permission
    set pc : SubPc := if s.count = 1 then .resume else .done with hpcdef
    have hnp : ¬ pc.Pending := by
      rw [hpcdef]
      split <;> exact id
    have hpend := tally_update (p := SubPc.Pending) (f := s.sub) hi pc
    have hres := tally_update (p := (· = SubPc.resume)) (f := s.sub) hi pc
    rw [if_pos (by rw [hpc]; trivial), if_neg hnp] at hpend
    rw [if_neg (by simp [hpc])] at hres
    have hidle : s.sub i ≠ .idle := by simp [hpc]
    constructor
    case count =>
      show s.count - 1 = (if s.awaiter.Pending then 1 else 0) +
        (tally n SubPc.Pending (update s.sub i pc) : ℤ)
      omega
    case fresh => exact fun j hj k hk => idle_update hidle (h.fresh j hj k hk) _
    case fresh' => exact fun j hj k hk => idle_update hidle (h.fresh' j hj k hk) _
    case stored => exact h.stored
    case running => exact h.running
    case permission =>
      show tally n (· = .resume) (update s.sub i pc) + s.routes.length =
        if s.count - 1 = 0 then 1 else 0
      by_cases hone : s.count = 1
      · rw [if_pos (by omega)]
        rw [if_neg (by omega)] at hperm
        rw [hpcdef, if_pos hone, if_pos rfl] at hres
        rw [hpcdef, if_pos hone]
        omega
      · -- the count cannot be zero already: this notification is still counted
        rw [if_neg (by omega)]
        have hpos : s.count ≠ 0 := by
          have : (0 : ℤ) ≤ if s.awaiter.Pending then 1 else 0 := by split <;> decide
          omega
        rw [if_neg hpos] at hperm
        rw [hpcdef, if_neg hone, if_neg (by simp)] at hres
        rw [hpcdef, if_neg hone]
        omega
  · cases hs

/-- Whoever may go on does so at count zero, past the `fetch_sub` of `try_await`. -/
theorem Inv.at_zero {n : ℕ} {s : State} (h : Inv n s)
    (hp : 0 < tally n (· = .resume) s.sub + s.routes.length) :
    s.count = 0 ∧ ¬ s.awaiter.Pending ∧ (∀ i < n, ¬ (s.sub i).Pending) := by
  have hperm := h.permission
  have hc := h.count
  by_cases hz : s.count = 0
  · rw [hz] at hc
    by_cases hpend : s.awaiter.Pending
    · rw [if_pos hpend] at hc
      omega
    · rw [if_neg hpend] at hc
      exact ⟨hz, hpend, tally_eq_zero_iff.mp (by omega)⟩
  · rw [if_neg hz] at hperm
    omega

theorem resume_permission {n : ℕ} {s : State} {i : ℕ} (hi : i < n) (hpc : s.sub i = .resume) :
    0 < tally n (· = .resume) s.sub := by
  rcases Nat.eq_zero_or_pos (tally n (· = .resume) s.sub) with hz | hpos
  · exact absurd hpc (tally_eq_zero_iff.mp hz i hi)
  · exact hpos

theorem resumeStep_inv {n : ℕ} {s s' : State} {i : ℕ} (h : Inv n s) (hi : i < n)
    (hs : resumeStep s i = some s') : Inv n s' := by
  unfold resumeStep at hs
  split at hs
  · rename_i hpc
    cases hs
    have hpos := resume_permission hi hpc
    obtain ⟨hz, hpend, -⟩ := h.at_zero (by omega)
    have hc := h.count
    have hperm := h.permission
    have hp := tally_update (p := SubPc.Pending) (f := s.sub) hi .done
    have hres := tally_update (p := (· = SubPc.resume)) (f := s.sub) hi .done
    rw [hpc, if_neg (by exact id), if_neg (by exact id)] at hp
    rw [if_pos hpc, if_neg (by simp)] at hres
    constructor
    case count =>
      rw [if_neg hpend] at hc
      show s.count = (if AwaiterPc.Pending .running then 1 else 0) +
        (tally n SubPc.Pending (update s.sub i .done) : ℤ)
      rw [if_neg (by exact id)]
      omega
    case permission =>
      show tally n (· = .resume) (update s.sub i .done) +
        (s.routes ++ [Route.resumedBy i]).length = if s.count = 0 then 1 else 0
      rw [List.length_append, List.length_singleton]
      omega
    case fresh =>
      intro j hj
      cases hj
    case fresh' =>
      intro j hj
      cases hj
    case stored => exact fun _ => h.stored (Or.inr hpend)
    case running => simp
  · cases hs

theorem step_inv {n : ℕ} {s s' : State} {act : Act} (h : Inv n s)
    (hs : step n s act = some s') : Inv n s' := by
  cases act with
  | awaiter => exact awaiterStep_inv h hs
  | complete i =>
      simp only [step] at hs
      split at hs
      · rename_i hguard
        obtain ⟨hi, hpc⟩ := hguard
        cases hs
        exact h.complete hi hpc
      · cases hs
  | notify i =>
      simp only [step] at hs
      split at hs
      · rename_i hi
        exact notifyStep_inv h hi hs
      · cases hs
  | resume i =>
      simp only [step] at hs
      split at hs
      · rename_i hi
        exact resumeStep_inv h hi hs
      · cases hs

theorem reachable_inv {n : ℕ} {s : State} (h : (system n).Reachable s) : Inv n s :=
  h.invariant (I := Inv n) (by rintro _ rfl; exact initial_inv n)
    (fun _ _ _ hi _ hs => step_inv hi hs)

/-! ## The awaiting coroutine goes on once -/

/-- The subtask's body has completed: it is at its final suspend, or past it. -/
def SubPc.Completed (pc : SubPc) : Prop :=
  pc = .notify ∨ pc = .resume ∨ pc = .done

/-- A notification that is about to resume the awaiting coroutine can do so. -/
theorem resumeStep_routes {n i : ℕ} {s : State} (hi : i < n) (hpc : s.sub i = .resume)
    (hnone : s.routes = []) : ∃ t, step n s (.resume i) = some t ∧ t.routes = [.resumedBy i] := by
  have hs : step n s (.resume i) = resumeStep s i := if_pos hi
  rw [hs, resumeStep, if_pos hpc, hnone]
  exact ⟨_, rfl, rfl⟩

/-- **The reference count hands over exactly once.** For every number of subtasks and
every interleaving: the awaiting coroutine goes on at most once; when it does, all
subtasks have completed and the start loop is over; a notification about to resume it
finds the handle stored, and can resume it at once; the count never drops below zero; and
once every notification has returned and `try_await` has subtracted, it has gone on exactly
once. -/
theorem continues_exactly_once (n : ℕ) (s : State) (h : (system n).Reachable s) :
    s.routes.length ≤ 1 ∧
    (s.routes ≠ [] → (∀ i < n, (s.sub i).Completed) ∧ ¬ s.awaiter.Pending) ∧
    (∀ i < n, s.sub i = .resume → s.awaitingCoro = true ∧ s.routes = [] ∧
      (∀ j < n, (s.sub j).Completed) ∧ s.awaiter = .suspended ∧
      ∃ t, step n s (.resume i) = some t ∧ t.routes = [.resumedBy i]) ∧
    0 ≤ s.count ∧
    ((∀ i < n, s.sub i = .done) → ¬ s.awaiter.Pending →
      s.routes.length = 1 ∧ s.awaiter = .running) := by
  have hi := reachable_inv h
  have hc := hi.count
  have hperm := hi.permission
  have hcompleted : (∀ i < n, ¬ (s.sub i).Pending) → ∀ i < n, (s.sub i).Completed := by
    intro hall i hin
    have := hall i hin
    cases hpc : s.sub i <;> simp_all [SubPc.Pending, SubPc.Completed]
  refine ⟨?_, ?_, ?_, ?_, ?_⟩
  · by_cases hz : s.count = 0
    · rw [if_pos hz] at hperm
      omega
    · rw [if_neg hz] at hperm
      omega
  · intro hne
    have hlen := List.length_pos_iff.mpr hne
    obtain ⟨-, hpend, hall⟩ := hi.at_zero (by omega)
    exact ⟨hcompleted hall, hpend⟩
  · intro i hin hpc
    have hpos := resume_permission hin hpc
    obtain ⟨hz, hpend, hall⟩ := hi.at_zero (by omega)
    rw [if_pos hz] at hperm
    have hr : s.routes = [] := List.length_eq_zero_iff.mp (by omega)
    refine ⟨hi.stored (Or.inr hpend), hr, hcompleted hall, ?_, resumeStep_routes hin hpc hr⟩
    have hnr : s.awaiter ≠ .running := fun hrun => hi.running.mp hrun hr
    cases ha : s.awaiter <;> simp_all [AwaiterPc.Pending]
  · have : (0 : ℤ) ≤ if s.awaiter.Pending then 1 else 0 := by split <;> decide
    omega
  · intro hdone hpend
    have hnone : tally n SubPc.Pending s.sub = 0 :=
      tally_eq_zero_iff.mpr fun i hin => by rw [hdone i hin]; exact id
    have hres : tally n (· = .resume) s.sub = 0 :=
      tally_eq_zero_iff.mpr fun i hin => by simp [hdone i hin]
    rw [if_neg hpend, hnone] at hc
    rw [if_pos (by omega), hres, Nat.zero_add] at hperm
    exact ⟨hperm, hi.running.mpr (List.length_pos_iff.mp (by omega))⟩

/-- The first of two subtasks completes inside its `start`, the second after the
awaiting coroutine has suspended. -/
def oneSyncOneAsync : List Act :=
  [.awaiter, .complete 0, .notify 0, .awaiter, .awaiter, .awaiter, .awaiter, .awaiter,
    .awaiter, .complete 1, .notify 1]

theorem continues_exactly_once_two_tasks :
    ∃ s, (system 2).Reachable s ∧ s.sub 1 = .resume ∧ s.awaitingCoro = true ∧
      s.awaiter = .suspended := by
  have hr : (system 2).Reachable (initial 2) := .init rfl
  have hs := hr.run oneSyncOneAsync rfl
  obtain ⟨hst, -, -, ha, -⟩ := (continues_exactly_once 2 _ hs).2.2.1 1 (by decide) rfl
  exact ⟨_, hs, rfl, hst, ha⟩

end Coroutines.WhenAll
