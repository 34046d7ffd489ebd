import Coroutines.ThreadPool.Progress

/-!
# What shutdown drains

A coroutine enters the pool and pushes its handle in two steps, and the sentinels may come between
the two. A handle behind them is never popped: a worker that gets as far as that takes a sentinel
first.
-/

namespace Coroutines.ThreadPool

open Transition Tally Function

/-! ## Pushes before the sentinels -/

/-- When the sentinels are pushed, every coroutine that entered has pushed its
handle. -/
def Settled (s : State) : Act → Prop
  | .shutdown => ∀ oldState, s.shutdown = .pushSentinels oldState → ∀ c, s.coro c ≠ .push
  | _ => True

/-- Every handle that entered is on its way to exactly one worker, and the sentinels are behind
all handles. -/
structure Inv (nThreads : ℕ) (s : State) : Prop extends Sane nThreads s where
  ledger : ∀ c, s.resumed c + (if s.coro c = .push ∨ s.coro c = .queued then 1 else 0) =
    s.entered c
  pending : ∀ c, c ≠ sentinelAwaiter →
    s.awaiters.count c + tally nThreads (· = .resume c) s.worker =
      if s.coro c = .queued then 1 else 0
  last : s.awaiters.Pairwise fun x y => x = sentinelAwaiter → y = sentinelAwaiter
  drained : 0 < tally nThreads (· = .exited) s.worker → ∀ x ∈ s.awaiters, x = sentinelAwaiter
  settled : s.shutdown.pushed = true → ∀ c, s.coro c ≠ .push

theorem initial_inv (nThreads : ℕ) : Inv nThreads initial where
  toSane := initial_sane nThreads
  ledger _ := by simp [initial]
  pending c _ := by simp [initial, Pool.initial, tally]
  last := List.Pairwise.nil
  drained _ := by simp [initial, Pool.initial]
  settled h := by simp [initial, ShutdownPc.pushed] at h

section
variable {nThreads : ℕ} {s s' : State}

/-! ### The coroutines -/

/-- A coroutine that is neither admitted nor queued, before and after, moves. -/
theorem Inv.goCoro (h : Inv nThreads s) {c : ℕ} {pc : CoroPc} {host : ℕ → Option ℕ}
    (hsane : Sane nThreads ({ s with host := host }.goCoro c pc))
    (hs : s.coro c ≠ .push ∧ s.coro c ≠ .queued) (hpc : pc ≠ .push ∧ pc ≠ .queued) :
    Inv nThreads ({ s with host := host }.goCoro c pc) := by
  have hstay : ∀ d x, (x = .push ∨ x = .queued) →
      (update s.coro c pc d = x ↔ s.coro d = x) := by
    intro d x hx
    by_cases hd : d = c
    · subst hd
      rcases hx with rfl | rfl <;> simp [hs, hpc]
    · simp [hd]
  refine ⟨hsane, fun d => ?_, fun d hd => ?_, h.last, h.drained, fun hpushed d => ?_⟩
  · simpa [State.goCoro, hstay] using h.ledger d
  · simpa [State.goCoro, hstay] using h.pending d hd
  · exact mt (hstay d .push (Or.inl rfl)).mp (h.settled hpushed d)

/-- Admission needs an open pool, and the sentinels come after it is closed. -/
theorem Sane.not_pushed (h : Sane nThreads s) (hopen : ¬ closed s.poolState) :
    s.shutdown.pushed = false := by
  have hclosing := h.closing
  unfold State.Closing at hclosing
  cases hpc : s.shutdown with
  | idle => rfl
  | pushSentinels oldState => rfl
  | join | returned =>
      rw [hpc] at hclosing
      exact absurd hclosing hopen

theorem Inv.enter (h : Inv nThreads s) {c : ℕ}
    (hsane : Sane nThreads ((s.enter c).goCoro c .push))
    (hc : s.coro c = .tryEnter s.poolState) (hopen : ¬ closed s.poolState) :
    Inv nThreads ((s.enter c).goCoro c .push) := by
  have hnot := h.not_pushed hopen
  refine ⟨hsane, fun d => ?_, fun d hd => ?_, h.last, h.drained, fun hpushed => ?_⟩
  · have hl := h.ledger d
    by_cases hdc : d = c
    · subst hdc
      simpa [State.goCoro, State.enter, hc] using hl
    · simpa [State.goCoro, State.enter, hdc] using hl
  · have hp := h.pending d hd
    by_cases hdc : d = c
    · subst hdc
      simpa [State.goCoro, State.enter, hc] using hp
    · simpa [State.goCoro, State.enter, hdc] using hp
  · exact absurd (hnot.symm.trans hpushed) Bool.false_ne_true

theorem tryEnterStep_inv {c : ℕ} {spurious : Bool} (h : Inv nThreads s)
    (hs : tryEnterStep s c spurious = some s') : Inv nThreads s' := by
  have hsane := tryEnterStep_sane h.toSane hs
  unfold tryEnterStep at hs
  split at hs
  · rename_i state hpc
    split at hs
    · cases hs
      exact h.goCoro hsane (by simp [hpc]) (by simp)
    · rename_i hopen
      split at hs
      · rename_i hcas
        obtain ⟨rfl, rfl⟩ := hcas
        cases hs
        exact h.enter hsane hpc hopen
      · cases hs
        exact h.goCoro hsane (by simp [hpc]) (by simp)
  · cases hs

/-- Before the sentinels are pushed there is none, neither in the queue nor with a worker. -/
theorem Sane.no_sentinel (h : Sane nThreads s) (hnot : s.shutdown.pushed = false) :
    s.awaiters.count sentinelAwaiter = 0 ∧ tally nThreads (· = .exited) s.worker = 0 := by
  have hsent := h.sentinels
  rw [hnot, if_neg Bool.false_ne_true] at hsent
  exact Nat.add_eq_zero_iff.mp hsent

theorem Inv.push (h : Inv nThreads s) {c : ℕ} (hc : s.coro c = .push) :
    Inv nThreads (s.push c) := by
  have hnot : s.shutdown.pushed = false := by
    by_contra hpushed
    exact h.settled (Bool.not_eq_false _ ▸ hpushed) c hc
  obtain ⟨hnone, hexited⟩ := h.no_sentinel hnot
  refine ⟨h.toSane.push hc, fun d => ?_, fun d hd => ?_, ?_, fun hpos => ?_, fun hpushed => ?_⟩
  · have hl := h.ledger d
    by_cases hdc : d = c
    · subst hdc
      simpa [State.push, hc] using hl
    · simpa [State.push, hdc] using hl
  · have hp := h.pending d hd
    by_cases hdc : d = c
    · subst hdc
      simp only [hc, reduceCtorEq, if_false] at hp
      simp only [State.push, update_self, if_true, List.count_append, List.count_singleton_self]
      omega
    · simpa [State.push, hdc, List.count_append, List.count_singleton, Ne.symm hdc] using hp
  · apply List.pairwise_append.mpr
    refine ⟨h.last, List.pairwise_singleton _ _, ?_⟩
    rintro x hx y - rfl
    exact absurd hx (List.count_eq_zero.mp hnone)
  · exact absurd hexited (Nat.ne_of_gt hpos)
  · exact absurd (hnot.symm.trans hpushed) Bool.false_ne_true

/-! ### The workers -/

/-- What a worker does when it neither takes from the queue nor resumes. -/
theorem Inv.goWorker (h : Inv nThreads s) {w : ℕ} {pc : WorkerPc} {poolState : BitVec 32}
    (hsane : Sane nThreads { s with
      poolState := poolState, worker := update s.worker w pc })
    (hw : w < nThreads) (hbusy : s.worker w ≠ .exited ∧ ∀ c, s.worker w ≠ .resume c)
    (hpc : pc ≠ .exited ∧ ∀ c, pc ≠ .resume c) :
    Inv nThreads { s with poolState := poolState, worker := update s.worker w pc } := by
  refine ⟨hsane, h.ledger, fun c hc => ?_, h.last, fun hpos => ?_, h.settled⟩
  · show _ + tally nThreads (· = .resume c) (update s.worker w pc) = _
    rw [tally_update_of_not (p := (· = WorkerPc.resume c)) hw (hbusy.2 c) (hpc.2 c)]
    exact h.pending c hc
  · apply h.drained
    rw [← tally_update_of_not (p := (· = WorkerPc.exited)) hw hbusy.1 hpc.1]
    exact hpos

/-- A worker takes a handle off the queue. -/
theorem Inv.popHandle (h : Inv nThreads s) {w c : ℕ} {rest : List ℕ} (hw : w < nThreads)
    (hpc : s.worker w = .pop) (hq : s.awaiters = c :: rest) (hc : c ≠ sentinelAwaiter) :
    Inv nThreads { s with awaiters := rest, worker := update s.worker w (.resume c) } := by
  have hlast := h.last
  have hexit : tally nThreads (· = .exited) (update s.worker w (.resume c)) =
      tally nThreads (· = .exited) s.worker :=
    tally_update_of_not hw (by simp [hpc]) (by simp)
  rw [hq] at hlast
  refine ⟨h.toSane.work hw (.handle hpc hq hc), h.ledger, fun d hd => ?_,
    (List.pairwise_cons.mp hlast).2, fun hpos x hx => ?_, h.settled⟩
  · have hp := h.pending d hd
    have ht := tally_update (p := (· = WorkerPc.resume d)) (f := s.worker) hw (.resume c)
    show rest.count d + tally nThreads (· = .resume d) (update s.worker w (.resume c)) = _
    rw [hq, List.count_cons] at hp
    simp only [hpc, reduceCtorEq, if_false, WorkerPc.resume.injEq] at ht
    simp only [beq_iff_eq] at hp
    refine Eq.trans ?_ hp
    omega
  · apply h.drained
    · rw [← hexit]
      exact hpos
    · rw [hq]
      exact List.mem_cons_of_mem _ hx

/-- A worker takes a sentinel: everything behind it is a sentinel too. -/
theorem Inv.popSentinel (h : Inv nThreads s) {w : ℕ} {rest : List ℕ} (hw : w < nThreads)
    (hpc : s.worker w = .pop) (hq : s.awaiters = sentinelAwaiter :: rest) :
    Inv nThreads { s with awaiters := rest, worker := update s.worker w .exited } := by
  have hlast := h.last
  rw [hq, List.pairwise_cons] at hlast
  refine ⟨h.toSane.work hw (.sentinel hpc hq), h.ledger, fun d hd => ?_, hlast.2,
    fun _ x hx => hlast.1 x hx rfl, h.settled⟩
  have hp := h.pending d hd
  rw [hq, List.count_cons_of_ne (Ne.symm hd)] at hp
  show rest.count d + tally nThreads (· = .resume d) (update s.worker w .exited) = _
  rw [tally_update_of_not hw (by simp [hpc]) (by simp)]
  exact hp

theorem Inv.resume (h : Inv nThreads s) {w c : ℕ} (hw : w < nThreads)
    (hpc : s.worker w = .resume c) :
    Inv nThreads ({ s with toPool := s.goWorker w (.resuming c) }.resume w c) := by
  have hne : c ≠ sentinelAwaiter := by
    rintro rfl
    exact h.proper w hpc
  have htally : ∀ d, tally nThreads (· = .resume d) (update s.worker w (.resuming c)) +
      (if c = d then 1 else 0) = tally nThreads (· = .resume d) s.worker := by
    intro d
    have ht := tally_update (p := (· = WorkerPc.resume d)) (f := s.worker) hw (.resuming c)
    simpa [hpc] using ht
  have hexit : tally nThreads (· = .exited) (update s.worker w (.resuming c)) =
      tally nThreads (· = .exited) s.worker :=
    tally_update_of_not hw (by simp [hpc]) (by simp)
  -- the popped handle is the coroutine's only one
  have hc := h.pending c hne
  have hcount := htally c
  rw [if_pos rfl] at hcount
  have hqueued : s.coro c = .queued := by
    by_contra hnq
    rw [if_neg hnq] at hc
    omega
  rw [if_pos hqueued] at hc
  refine ⟨h.toSane.resume hw hpc, fun d => ?_, fun d hd => ?_, h.last, fun hpos => ?_,
    fun hpushed d => ?_⟩
  · have hl := h.ledger d
    by_cases hdc : d = c
    · subst hdc
      simpa [State.resume, hqueued] using hl
    · simpa [State.resume, hdc] using hl
  · show s.awaiters.count d + tally nThreads (· = .resume d)
      (update s.worker w (.resuming c)) = _
    by_cases hdc : d = c
    · subst hdc
      simp only [State.resume, update_self, reduceCtorEq, if_false]
      omega
    · have ht := htally d
      rw [if_neg (Ne.symm hdc)] at ht
      rw [Nat.add_zero] at ht
      rw [ht]
      simpa [State.resume, hdc] using h.pending d hd
  · apply h.drained
    rw [← hexit]
    exact hpos
  · show update s.coro c .running d ≠ .push
    by_cases hdc : d = c
    · subst hdc
      simp
    · rw [update_of_ne hdc]
      exact h.settled hpushed d

theorem workStep_inv {w : ℕ} (h : Inv nThreads s) (hw : w < nThreads)
    (hs : workStep s w = some s') : Inv nThreads s' := by
  cases workStep_case hs with
  | resume hpc => exact h.resume hw hpc
  | pool hp hnot =>
      have hsane := h.toSane.work hw hp
      cases hp with
      | handle hpc hq hc => exact h.popHandle hw hpc hq hc
      | sentinel hpc hq => exact h.popSentinel hw hpc hq
      | resume hpc => exact absurd hpc (hnot _)
      | resumed hpc | leave hpc => exact h.goWorker hsane hw (by simp [hpc]) (by simp)

/-! ### Shutdown -/

theorem Inv.pushSentinels (h : Inv nThreads s) {awaiters : List ℕ} {oldState : BitVec 32}
    (hsane : Sane nThreads { s with awaiters := awaiters, shutdown := .join })
    (hpc : s.shutdown = .pushSentinels oldState)
    (hq : awaiters = s.awaiters ++ List.replicate nThreads sentinelAwaiter)
    (hok : ∀ c, s.coro c ≠ .push) :
    Inv nThreads { s with awaiters := awaiters, shutdown := .join } := by
  obtain ⟨-, hexited⟩ := h.no_sentinel (by rw [hpc]; rfl)
  subst hq
  refine ⟨hsane, h.ledger, fun c hc => ?_, ?_, fun hpos => ?_, fun _ => hok⟩
  · have hp := h.pending c hc
    show List.count c (s.awaiters ++ List.replicate nThreads sentinelAwaiter) + _ = _
    rw [List.count_append, List.count_replicate, if_neg (by simpa using Ne.symm hc)]
    exact hp
  · apply List.pairwise_append.mpr
    refine ⟨h.last, ?_, ?_⟩
    · exact List.pairwise_replicate.mpr (Or.inr fun hx => hx)
    · intro x hx y hy _
      exact List.eq_of_mem_replicate hy
  · exact absurd hexited (Nat.ne_of_gt hpos)

theorem shutdownStep_inv (h : Inv nThreads s) (hok : Settled s .shutdown)
    (hs : shutdownStep nThreads s = some s') : Inv nThreads s' := by
  have hsane := shutdownStep_sane h.toSane hs
  have hclosing := h.closing
  unfold State.Closing at hclosing
  unfold shutdownStep at hs
  split at hs
  · cases hs
    exact ⟨hsane, h.ledger, h.pending, h.last, h.drained, fun hnot => by cases hnot⟩
  · rename_i oldState hpc
    rw [hpc] at hclosing
    cases hs
    exact h.pushSentinels hsane hpc (if_neg hclosing.1) (hok oldState hpc)
  · rename_i hpc
    have hsettled := h.settled
    rw [hpc] at hsettled
    split at hs
    · cases hs
      exact ⟨hsane, h.ledger, h.pending, h.last, h.drained, fun _ => hsettled rfl⟩
    · cases hs
  · cases hs

theorem step_inv {act : Act} (h : Inv nThreads s) (hok : Settled s act)
    (hs : step nThreads s act = some s') : Inv nThreads s' := by
  have hsane := step_sane h.toSane hs
  cases act with
  | start c =>
      obtain ⟨⟨-, hpc⟩, heq⟩ := Option.ite_none_right_eq_some.mp hs
      obtain rfl := Option.some.inj heq
      exact h.goCoro hsane (by simp [hpc]) (by simp)
  | yield c | schedule c =>
      obtain ⟨hpc, heq⟩ := Option.ite_none_right_eq_some.mp hs
      obtain rfl := Option.some.inj heq
      exact h.goCoro hsane (by simp [hpc]) (by simp)
  | tryEnter c spurious => exact tryEnterStep_inv h hs
  | push c =>
      obtain ⟨hpc, heq⟩ := Option.ite_none_right_eq_some.mp hs
      obtain rfl := Option.some.inj heq
      exact h.push hpc
  | work w =>
      obtain ⟨hw, hs⟩ := Option.ite_none_right_eq_some.mp hs
      exact workStep_inv h hw hs
  | shutdown => exact shutdownStep_inv h hok hs

theorem reachable_inv (h : (system nThreads).ReachableUnder Settled s) : Inv nThreads s := by
  apply h.invariant
  · rintro _ rfl
    exact initial_inv nThreads
  · exact fun _ _ _ hi hok hs => step_inv hi hok hs

/-- All workers are gone, so all sentinels were taken, and with them everything in
front of them. -/
theorem Inv.drain (h : Inv nThreads s) (hn : 0 < nThreads) : s.Drained := by
  intro hret
  have hall := h.joined hret
  have hexit : tally nThreads (· = .exited) s.worker = nThreads := tally_eq_of_forall hall
  have hzero := h.drained (hexit.symm ▸ hn)
  have hresume : ∀ c, tally nThreads (· = .resume c) s.worker = 0 := fun c =>
    tally_eq_zero_iff.mpr fun w hw => by simp [hall w hw]
  have hsettled := h.settled
  rw [hret] at hsettled
  refine ⟨fun c => ?_, hzero⟩
  have hl := h.ledger c
  have hnq : s.coro c ≠ .queued := by
    intro hq
    have hc : c ≠ sentinelAwaiter := h.address c (by simp [hq])
    have hp := h.pending c hc
    rw [hresume, if_pos hq, List.count_eq_zero.mpr fun hmem => hc (hzero c hmem)] at hp
    cases hp
  simpa [hsettled rfl c, hnq] using hl

/-! ## A push behind the sentinels -/

/-- The handle is in the queue, and in front of it there is a sentinel for every worker that is
still in its loop. -/
def Behind (nThreads c : ℕ) (p : Pool) : Prop :=
  ∃ front back, p.awaiters = front ++ c :: back ∧
    front.count sentinelAwaiter + tally nThreads (· = .exited) p.worker = nThreads

theorem Behind.append {c : ℕ} {p : Pool} (h : Behind nThreads c p) (poolState : BitVec 32)
    (more : List ℕ) :
    Behind nThreads c { p with poolState := poolState, awaiters := p.awaiters ++ more } := by
  obtain ⟨front, back, hq, hcount⟩ := h
  refine ⟨front, back ++ more, ?_, hcount⟩
  show p.awaiters ++ more = _
  rw [hq, List.append_assoc, List.cons_append]

/-- **A worker never gets as far as the handle.** -/
theorem Behind.work {c w : ℕ} {p p' : Pool} (h : Behind nThreads c p) (hw : w < nThreads)
    (hp : p.Works w p') : Behind nThreads c p' := by
  obtain ⟨front, back, hq, hcount⟩ := h
  have hin := hp.not_exited
  -- a sentinel is in front of the handle, since this worker has yet to take one
  obtain ⟨x, front, rfl⟩ : ∃ x rest, front = x :: rest := by
    apply List.exists_cons_of_ne_nil
    rintro rfl
    rw [List.count_nil, Nat.zero_add] at hcount
    exact absurd hcount (Nat.ne_of_lt (tally_lt hw hin))
  have hstay : ∀ {pc : WorkerPc}, pc ≠ .exited →
      tally nThreads (· = .exited) (update p.worker w pc) =
        tally nThreads (· = .exited) p.worker := fun hpc => tally_update_of_not hw hin hpc
  cases hp with
  | resume | resumed | leave =>
      exact ⟨x :: front, back, hq, (congrArg _ (hstay (by simp))).trans hcount⟩
  | handle hpc hq' hc =>
      obtain ⟨rfl, rfl⟩ := List.cons.inj (hq'.symm.trans hq)
      rw [List.count_cons_of_ne hc] at hcount
      exact ⟨front, back, rfl, (congrArg _ (hstay (by simp))).trans hcount⟩
  | sentinel hpc hq' =>
      obtain ⟨rfl, rfl⟩ := List.cons.inj (hq'.symm.trans hq)
      have hmove := tally_update (p := (· = WorkerPc.exited)) (f := p.worker) hw .exited
      rw [if_neg hin, if_pos rfl] at hmove
      rw [List.count_cons_self, Nat.add_right_comm] at hcount
      exact ⟨front, back, rfl, (congrArg _ hmove).trans hcount⟩

theorem step_behind {c : ℕ} {act : Act} (h : Behind nThreads c s.toPool)
    (hs : step nThreads s act = some s') : Behind nThreads c s'.toPool := by
  cases act with
  | start d | yield d | schedule d =>
      obtain ⟨-, heq⟩ := Option.ite_none_right_eq_some.mp hs
      rw [← Option.some.inj heq]
      exact h
  | push d =>
      obtain ⟨-, heq⟩ := Option.ite_none_right_eq_some.mp hs
      rw [← Option.some.inj heq]
      exact h.append _ [d]
  | work w =>
      obtain ⟨hw, hs⟩ := Option.ite_none_right_eq_some.mp hs
      cases workStep_case hs with
      | resume hpc => exact h.work hw (.resume hpc)
      | pool hp _ => exact h.work hw hp
  | tryEnter d spurious =>
      have hword : ∀ poolState, Behind nThreads c { s.toPool with poolState := poolState } :=
        fun poolState => by simpa using h.append poolState []
      have hs : tryEnterStep s d spurious = some s' := hs
      unfold tryEnterStep at hs
      split at hs
      · split at hs
        · cases hs
          exact h
        · split at hs
          · cases hs
            exact hword _
          · cases hs
            exact h
      · cases hs
  | shutdown =>
      have hs : shutdownStep nThreads s = some s' := hs
      unfold shutdownStep at hs
      split at hs
      · cases hs
        simpa using h.append (s.poolState ||| closedFlag) []
      · cases hs
        show Behind nThreads c { s.toPool with awaiters := if closed _ then _ else _ }
        split
        · exact h
        · exact h.append _ _
      · split at hs
        · cases hs
          exact h
        · cases hs
      · cases hs

/-- **A handle that is pushed behind the sentinels stays in the queue** when `shutdown` returns. -/
theorem Inv.late_push (h : Inv nThreads s) {oldState : BitVec 32} {c : ℕ}
    (hpc : s.shutdown = .pushSentinels oldState) (hc : s.coro c = .push)
    (hs : step nThreads s .shutdown = some s') :
    ∃ acts u, (system nThreads).run s' acts = some u ∧ ¬ u.Drained := by
  have hclosing := h.closing
  rw [State.Closing, hpc] at hclosing
  obtain ⟨hnone, hexited⟩ := h.no_sentinel (by rw [hpc]; rfl)
  have hsane := step_sane h.toSane hs
  obtain rfl : s' = { s with
      awaiters := s.awaiters ++ List.replicate nThreads sentinelAwaiter
      shutdown := .join } := by
    simp only [step, shutdownStep, hpc, if_neg hclosing.1] at hs
    exact (Option.some.inj hs).symm
  set t := { s with
    awaiters := s.awaiters ++ List.replicate nThreads sentinelAwaiter
    shutdown := .join } with ht
  have hpush : (system nThreads).step t (.push c) = some (t.push c) := if_pos hc
  have hbehind : Behind nThreads c (t.push c).toPool := by
    refine ⟨_, [], rfl, ?_⟩
    show (s.awaiters ++ List.replicate nThreads sentinelAwaiter).count sentinelAwaiter +
      tally nThreads (· = .exited) s.worker = nThreads
    rw [List.count_append, List.count_replicate_self, hnone, hexited, Nat.zero_add, Nat.add_zero]
  obtain ⟨u, hleads, hreturned, -⟩ := (hsane.push hc).can_return
  obtain ⟨acts, hrun⟩ := hleads.exists_run
  refine ⟨.push c :: acts, u, (System.run_cons _ hpush).trans hrun, fun hdrained => ?_⟩
  obtain ⟨front, back, hq, -⟩ := hleads.invariant (I := fun v => Behind nThreads c v.toPool)
    (fun _ _ _ hv hstep => step_behind hv hstep) hbehind
  have hzero := (hdrained hreturned).2 c (by rw [hq]; simp)
  exact h.address c (by simp [hc]) hzero

end

/-- **Shutdown drains the pool exactly if no admission is half done.** If no coroutine stands
between entering and pushing when the sentinels are pushed, then once `shutdown` has returned every
admitted coroutine was resumed and no handle is left; and wherever one does, the run can go on
until `shutdown` returns and leaves that handle in the queue. -/
theorem drained_of_settled (nThreads : ℕ) (hn : 0 < nThreads) (s : State)
    (h : (system nThreads).ReachableUnder Settled s) :
    s.Drained ∧ ∀ act t, step nThreads s act = some t → ¬ Settled s act →
      ∃ acts u, (system nThreads).run t acts = some u ∧ ¬ u.Drained := by
  have hinv := reachable_inv h
  refine ⟨hinv.drain hn, fun act t hs hnot => ?_⟩
  cases act with
  | shutdown =>
      simp only [Settled, not_forall, not_not] at hnot
      obtain ⟨oldState, hpc, c, hc⟩ := hnot
      exact hinv.late_push hpc hc hs
  | _ => exact absurd trivial hnot

/-- The handle is pushed before the sentinel, and the worker resumes it. -/
def pushedBeforeSentinels : List Act :=
  [.start 5, .schedule 5, .tryEnter 5 false, .push 5, .shutdown, .shutdown, .work 0, .work 0,
    .yield 5, .work 0, .work 0, .work 0, .shutdown]

theorem drained_of_settled_one_worker :
    ∃ s, (system 1).ReachableUnder Settled s ∧ s.shutdown = .returned ∧ s.entered 5 = 1 ∧
      s.resumed 5 = 1 ∧ s.Drained := by
  have h0 : (system 1).ReachableUnder Settled initial := .init rfl
  have hm : (system 1).Meets Settled initial pushedBeforeSentinels := by
    refine ⟨trivial, _, rfl, trivial, _, rfl, trivial, _, rfl, trivial, _, rfl, ?_, _, rfl,
      ?_, _, rfl, trivial, _, rfl, trivial, _, rfl, trivial, _, rfl, trivial, _, rfl,
      trivial, _, rfl, trivial, _, rfl, ?_, _, rfl, trivial⟩
    · intro oldState hpc
      cases hpc
    · intro oldState _ c
      by_cases hc : c = 5
      · subst hc
        simp [State.push]
      · simp [State.push, State.goCoro, State.enter, initial, hc]
    · intro oldState hpc
      cases hpc
  have hs := h0.run hm rfl
  exact ⟨_, hs, rfl, rfl, rfl, (drained_of_settled 1 (by decide) _ hs).1⟩

end Coroutines.ThreadPool
