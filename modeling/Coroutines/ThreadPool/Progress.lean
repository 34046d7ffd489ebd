import Coroutines.ThreadPool

/-!
# A pool can always be shut down

`shutdown` waits for the workers, a worker waits for handles or for the coroutine it resumed, and a
coroutine may be anywhere. Whatever they are doing, they can go on until `shutdown` returns: there
is a sentinel for every worker that has not left, behind the handles, and a coroutine that asks to
come back once the pool is closed is turned away.
-/

namespace Coroutines.ThreadPool

open Transition System Tally Function

/-! ## The way out -/

section
variable {nThreads : ℕ} {s s' : State}

theorem leads_of_step {act : Act} (hs : ThreadPool.step nThreads s act = some s') :
    (system nThreads).Leads s s' :=
  .single hs

/-- A later state of a pool that is closed, in the same call of `shutdown`. -/
structure Later (nThreads : ℕ) (s t : State) : Prop where
  leads : (system nThreads).Leads s t
  sane : Sane nThreads t
  flag : closed t.poolState
  shutdown : t.shutdown = s.shutdown

theorem Sane.later (h : Sane nThreads s) (hflag : closed s.poolState) : Later nThreads s s :=
  ⟨Relation.ReflTransGen.refl, h, hflag, rfl⟩

theorem Later.trans {t u : State} (h : Later nThreads s t) (h' : Later nThreads t u) :
    Later nThreads s u :=
  ⟨h.leads.trans h'.leads, h'.sane, h'.flag, h'.shutdown.trans h.shutdown⟩

theorem Later.step {t u : State} (h : Later nThreads s t) {act : Act}
    (hs : ThreadPool.step nThreads t act = some u) (hflag : closed u.poolState)
    (hshutdown : u.shutdown = t.shutdown) : Later nThreads s u :=
  ⟨h.leads.trans (leads_of_step hs), step_sane h.sane hs, hflag, hshutdown.trans h.shutdown⟩

/-- **A coroutine that runs on a worker lets it go**, and is only put on the queue if it had
entered before the pool was closed. -/
theorem Sane.let_go (h : Sane nThreads s) (hflag : closed s.poolState) {c w : ℕ}
    (hhost : s.host c = some w) : ∃ t, Later nThreads s t ∧ t.host c = none ∧
      t.worker = s.worker ∧ (s.coro c = .running → t.awaiters = s.awaiters) := by
  have hyield : ∀ {t : State}, Later nThreads s t → t.coro c = .running → t.worker = s.worker →
      t.awaiters = s.awaiters → ∃ u, Later nThreads s u ∧ u.host c = none ∧
        u.worker = s.worker ∧ (s.coro c = .running → u.awaiters = s.awaiters) := by
    intro t ht hrunning hworker hawaiters
    have hstep : ThreadPool.step nThreads t (.yield c) = _ := if_pos hrunning
    exact ⟨_, ht.step hstep ht.flag rfl, update_self .., hworker, fun _ => hawaiters⟩
  have hsame := h.later hflag
  have hruns := h.hosted c w hhost
  cases hpc : s.coro c with
  | running =>
      rw [hpc] at hyield
      exact hyield hsame hpc rfl rfl
  | push =>
      have hstep : ThreadPool.step nThreads s (.push c) = _ := if_pos hpc
      exact ⟨_, hsame.step hstep hflag rfl, update_self .., rfl, fun hrunning => nomatch hrunning⟩
  | tryEnter state =>
      rw [hpc] at hyield
      by_cases hstate : closed state
      · have hfirst : ThreadPool.step nThreads s (.tryEnter c true) =
            some (s.goCoro c .running) := by
          simp only [ThreadPool.step, tryEnterStep, hpc, if_pos hstate]
        exact hyield (hsame.step hfirst hflag rfl) (update_self ..) rfl rfl
      · -- the word is read again, and the pool is closed
        have hfirst : ThreadPool.step nThreads s (.tryEnter c true) =
            some (s.goCoro c (.tryEnter s.poolState)) := by
          simp only [ThreadPool.step, tryEnterStep, hpc, if_neg hstate]
          simp
        have hagain : (s.goCoro c (.tryEnter s.poolState)).coro c = .tryEnter s.poolState :=
          update_self ..
        have hsecond : ThreadPool.step nThreads (s.goCoro c (.tryEnter s.poolState))
            (.tryEnter c true) =
              some ((s.goCoro c (.tryEnter s.poolState)).goCoro c .running) := by
          simp only [ThreadPool.step, tryEnterStep, hagain, if_pos hflag]
        exact hyield ((hsame.step hfirst hflag rfl).step hsecond hflag rfl) (update_self ..) rfl
          rfl
  | away | queued =>
      rw [hpc] at hruns
      exact hruns.elim

/-- The worker is back at the queue. -/
theorem Sane.leave_later (h : Sane nThreads s) (hflag : closed s.poolState) {w : ℕ}
    (hw : w < nThreads) (hpc : s.worker w = .leave) :
    ∃ t, Later nThreads s t ∧ t.worker = update s.worker w .pop ∧ t.awaiters = s.awaiters := by
  have hstep : ThreadPool.step nThreads s (.work w) =
      some { s with toPool := { s.toPool with
        poolState := s.poolState - newAwaiterIncrement }.goWorker w .pop } := by
    simp only [ThreadPool.step, if_pos hw, workStep, hpc, Pool.work, Option.map_some]
  exact ⟨_, (h.later hflag).step hstep ((closed_sub _).mpr hflag) rfl, rfl, rfl⟩

theorem Sane.resumed_later (h : Sane nThreads s) (hflag : closed s.poolState) {w c : ℕ}
    (hw : w < nThreads) (hpc : s.worker w = .resuming c) :
    ∃ t, Later nThreads s t ∧ t.worker = update s.worker w .pop ∧
      (s.coro c = .running → t.awaiters = s.awaiters) := by
  obtain ⟨t, ht, hhost, hworker, hawaiters⟩ : ∃ t, Later nThreads s t ∧ t.host c ≠ some w ∧
      t.worker = s.worker ∧ (s.coro c = .running → t.awaiters = s.awaiters) := by
    by_cases hhost : s.host c = some w
    · obtain ⟨t, ht, hnone, hrest⟩ := h.let_go hflag hhost
      exact ⟨t, ht, by simp [hnone], hrest⟩
    · exact ⟨s, h.later hflag, hhost, rfl, fun _ => rfl⟩
  have hresuming : t.worker w = .resuming c := by rw [hworker, hpc]
  have hstep : ThreadPool.step nThreads t (.work w) =
      some { t with toPool := t.goWorker w .leave } := by
    simp only [ThreadPool.step, if_pos hw, workStep, hresuming, if_neg hhost, Pool.work,
      Option.map_some]
  have hleave := ht.step hstep ht.flag rfl
  obtain ⟨u, hu, hworker', hawaiters'⟩ :=
    hleave.sane.leave_later hleave.flag hw (update_self ..)
  refine ⟨u, hleave.trans hu, ?_, fun hrunning => hawaiters'.trans (hawaiters hrunning)⟩
  rw [hworker']
  show update (update t.worker w .leave) w .pop = _
  rw [update_idem, hworker]

/-- **A busy worker** gets back to the queue. -/
theorem Sane.back (h : Sane nThreads s) (hflag : closed s.poolState) {w : ℕ} (hw : w < nThreads)
    (hbusy : s.worker w ≠ .pop ∧ s.worker w ≠ .exited) :
    ∃ t, Later nThreads s t ∧ t.worker = update s.worker w .pop ∧
      ((∃ c, s.worker w = .resume c) → t.awaiters = s.awaiters) := by
  cases hpc : s.worker w with
  | pop => exact absurd hpc hbusy.1
  | exited => exact absurd hpc hbusy.2
  | leave =>
      obtain ⟨t, ht, hworker, hawaiters⟩ := h.leave_later hflag hw hpc
      exact ⟨t, ht, hworker, fun _ => hawaiters⟩
  | resuming c =>
      obtain ⟨t, ht, hworker, -⟩ := h.resumed_later hflag hw hpc
      refine ⟨t, ht, hworker, ?_⟩
      rintro ⟨d, hd⟩
      cases hd
  | resume c =>
      have hstep : ThreadPool.step nThreads s (.work w) =
          some ({ s with toPool := s.goWorker w (.resuming c) }.resume w c) := by
        simp only [ThreadPool.step, if_pos hw, workStep, hpc, Pool.work, Option.map_some]
      have hlater := (h.later hflag).step hstep hflag rfl
      obtain ⟨t, ht, hworker, hawaiters⟩ :=
        hlater.sane.resumed_later hlater.flag hw (update_self ..)
      refine ⟨t, hlater.trans ht, ?_, fun _ => hawaiters (update_self ..)⟩
      rw [hworker]
      exact update_idem ..

/-- **All workers** get back to the queue, or have left. -/
theorem Sane.all_back (h : Sane nThreads s) (hflag : closed s.poolState) :
    ∀ k ≤ nThreads, ∃ t, Later nThreads s t ∧
      ∀ w < k, t.worker w = .pop ∨ t.worker w = .exited := by
  intro k
  induction k with
  | zero => exact fun _ => ⟨s, h.later hflag, fun w hw => absurd hw (Nat.not_lt_zero w)⟩
  | succ k ih =>
      intro hk
      obtain ⟨t, ht, hidle⟩ := ih (Nat.le_of_succ_le hk)
      by_cases hbusy : t.worker k ≠ .pop ∧ t.worker k ≠ .exited
      · obtain ⟨u, hu, hworker, -⟩ := ht.sane.back ht.flag hk hbusy
        refine ⟨u, ht.trans hu, fun w hw => ?_⟩
        rw [hworker]
        rcases eq_or_ne w k with rfl | hne
        · rw [update_self]
          exact Or.inl rfl
        · rw [update_of_ne hne]
          exact hidle w (Nat.lt_of_le_of_ne (Nat.le_of_lt_succ hw) hne)
      · refine ⟨t, ht, fun w hw => ?_⟩
        rcases eq_or_ne w k with rfl | hne
        · rw [not_and_or, not_not, not_not] at hbusy
          exact hbusy
        · exact hidle w (Nat.lt_of_le_of_ne (Nat.le_of_lt_succ hw) hne)

/-- **The queue is emptied** up to the last sentinel. -/
theorem Sane.drain {l : ℕ} (h : Sane nThreads s) (hpc : s.shutdown = .join)
    (hflag : closed s.poolState) (hidle : ∀ w < nThreads, s.worker w = .pop ∨ s.worker w = .exited)
    (hlength : s.awaiters.length = l) :
    ∃ t, Later nThreads s t ∧ ∀ w < nThreads, t.worker w = .exited := by
  induction l generalizing s with
  | zero =>
      refine ⟨s, h.later hflag, fun w hw => ?_⟩
      by_contra hexit
      have hlt := tally_lt (p := (· = WorkerPc.exited)) (f := s.worker) hw hexit
      have hsent := h.sentinels
      rw [hpc, Pool.sentinels, List.length_eq_zero_iff.mp hlength, List.count_nil,
        Nat.zero_add] at hsent
      exact absurd hsent (Nat.ne_of_lt hlt)
  | succ l ih =>
      by_cases hall : ∀ w < nThreads, s.worker w = .exited
      · exact ⟨s, h.later hflag, hall⟩
      · simp only [not_forall] at hall
        obtain ⟨w, hw, hexit⟩ := hall
        have hpop := (hidle w hw).resolve_right hexit
        obtain ⟨rawAwaiter, rest, hq⟩ := List.exists_cons_of_length_eq_add_one hlength
        rw [hq, List.length_cons, Nat.succ_inj] at hlength
        have hstep : ThreadPool.step nThreads s (.work w) =
            some { s with
              toPool := { s.toPool with awaiters := rest }.goWorker w
                (if rawAwaiter = sentinelAwaiter then .exited else .resume rawAwaiter) } := by
          simp only [ThreadPool.step, if_pos hw, workStep, hpop, Pool.work, hq, Option.map_some]
        have hlater := (h.later hflag).step hstep hflag rfl
        have hothers : ∀ {f : ℕ → WorkerPc} {pc : WorkerPc}, (pc = .pop ∨ pc = .exited) →
            f = update s.worker w pc → ∀ v < nThreads, f v = .pop ∨ f v = .exited := by
          rintro f pc hnow rfl v hv
          rcases eq_or_ne v w with rfl | hne
          · rw [update_self]
            exact hnow
          · rw [update_of_ne hne]
            exact hidle v hv
        by_cases hraw : rawAwaiter = sentinelAwaiter
        · rw [if_pos hraw] at hlater
          obtain ⟨t, ht, hall⟩ := ih hlater.sane hpc hlater.flag (hothers (Or.inr rfl) rfl) hlength
          exact ⟨t, hlater.trans ht, hall⟩
        · -- the handle is resumed, and the worker comes back
          rw [if_neg hraw] at hlater
          have hresume : ({ s.toPool with awaiters := rest }.goWorker w
              (.resume rawAwaiter)).worker w = .resume rawAwaiter := update_self ..
          obtain ⟨t, ht, hworker, hawaiters⟩ := hlater.sane.back hlater.flag hw
            (by rw [hresume]; simp)
          have hworker : t.worker = update s.worker w .pop := by
            rw [hworker]
            exact update_idem ..
          have hlength : t.awaiters.length = l := by
            rw [hawaiters ⟨_, hresume⟩]
            exact hlength
          obtain ⟨u, hu, hall⟩ := ih ht.sane (ht.shutdown.trans hpc) ht.flag
            (hothers (Or.inl rfl) hworker) hlength
          exact ⟨u, (hlater.trans ht).trans hu, hall⟩

/-- From the loop of `join`. -/
theorem Sane.returns (h : Sane nThreads s) (hpc : s.shutdown = .join) :
    ∃ t, (system nThreads).Leads s t ∧ t.shutdown = .returned ∧
      ∀ w < nThreads, t.worker w = .exited := by
  have hflag : closed s.poolState := by
    have hclosing := h.closing
    rw [State.Closing, hpc] at hclosing
    exact hclosing
  obtain ⟨t, ht, hidle⟩ := h.all_back hflag nThreads (Nat.le_refl _)
  have htpc := ht.shutdown.trans hpc
  obtain ⟨u, hu, hall⟩ := ht.sane.drain htpc ht.flag hidle rfl
  have hstep : ThreadPool.step nThreads u .shutdown = some { u with shutdown := .returned } := by
    simp only [ThreadPool.step, shutdownStep, hu.shutdown.trans htpc]
    exact if_pos hall
  exact ⟨_, (ht.trans hu).leads.trans (leads_of_step hstep), rfl, hall⟩

theorem Sane.returns_of_pushSentinels (h : Sane nThreads s) {oldState : BitVec 32}
    (hpc : s.shutdown = .pushSentinels oldState) :
    ∃ t, (system nThreads).Leads s t ∧ t.shutdown = .returned ∧
      ∀ w < nThreads, t.worker w = .exited := by
  have hstep : ThreadPool.step nThreads s .shutdown = some { s with
      awaiters := if closed oldState then s.awaiters
        else s.awaiters ++ List.replicate nThreads sentinelAwaiter
      shutdown := .join } := by
    simp only [ThreadPool.step, shutdownStep, hpc]
  obtain ⟨t, ht, hreturned⟩ := (step_sane h hstep).returns rfl
  exact ⟨t, .trans (leads_of_step hstep) ht, hreturned⟩

theorem Sane.can_return (h : Sane nThreads s) :
    ∃ t, (system nThreads).Leads s t ∧ t.shutdown = .returned ∧
      ∀ w < nThreads, t.worker w = .exited := by
  cases hpc : s.shutdown with
  | idle =>
      have hstep : ThreadPool.step nThreads s .shutdown = some { s with
          poolState := s.poolState ||| closedFlag
          shutdown := .pushSentinels s.poolState } := by
        simp only [ThreadPool.step, shutdownStep, hpc]
      obtain ⟨t, ht, hreturned⟩ := (step_sane h hstep).returns_of_pushSentinels rfl
      exact ⟨t, .trans (leads_of_step hstep) ht, hreturned⟩
  | pushSentinels oldState => exact h.returns_of_pushSentinels hpc
  | join => exact h.returns hpc
  | returned => exact ⟨s, Relation.ReflTransGen.refl, hpc, h.joined hpc⟩

end

/-- **The pool can always be shut down.** For any number of workers and in every state that any
interleaving of coroutines, workers and `shutdown` leads to, the workers and the coroutines that
they run can go on until every worker has left its loop and `shutdown` has returned. -/
theorem shutdown_can_return (nThreads : ℕ) (s : State) (h : (system nThreads).Reachable s) :
    ∃ t, (system nThreads).Leads s t ∧ t.shutdown = .returned ∧
      ∀ w < nThreads, t.worker w = .exited :=
  (reachable_sane h).can_return

/-- A coroutine comes back to the pool from a worker while the pool is being closed. -/
def backWhileClosing : List Act :=
  [.start 5, .schedule 5, .tryEnter 5 false, .push 5, .work 0, .work 0, .schedule 5,
    .tryEnter 5 false, .shutdown, .shutdown]

theorem shutdown_can_return_back_while_closing :
    ∃ s, (system 2).Reachable s ∧ s.coro 5 = .push ∧ s.host 5 = some 0 ∧ s.awaiters = [0, 0] ∧
      ∃ t, (system 2).Leads s t ∧ t.shutdown = .returned ∧ ∀ w < 2, t.worker w = .exited := by
  have h0 : (system 2).Reachable initial := .init rfl
  have hs := h0.run backWhileClosing rfl
  exact ⟨_, hs, rfl, rfl, rfl, shutdown_can_return 2 _ hs⟩

end Coroutines.ThreadPool
