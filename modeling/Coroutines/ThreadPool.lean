import Coroutines.Lib.FlagWord
import Coroutines.Lib.Transition
import Coroutines.Lib.Tally

/-!
# The thread pool

`applications/threadpool/thread_pool.hpp`. A coroutine that awaits
`pool.schedule()` first enters the pool, by adding one outstanding awaiter to
`pool_state` unless the closed flag is set there, and then pushes its handle onto
the queue. Workers pop the queue: a handle is resumed, a sentinel ends the worker.
`shutdown` sets the closed flag, pushes one sentinel for each worker and joins the
workers.

Entering and pushing are two steps, and so are closing and pushing the sentinels.
The model interleaves the steps of any number of coroutines and workers and of one
`shutdown` call. A critical section of the queue is one step.
-/

namespace Coroutines.ThreadPool

open Transition Tally Function

/-! ## The model -/

def closedFlag : BitVec 32 := 1

def newAwaiterIncrement : BitVec 32 := 2

/-- The queue holds handles as integers; no coroutine frame is at address `0`. -/
def sentinelAwaiter : ℕ := 0

/-- Where a coroutine stands. -/
inductive CoroPc
  | away                          -- not running, and not for the pool to resume
  | running
  | tryEnter (state : BitVec 32)  -- in the loop of `try_awaiter_enter`
  | push                          -- entered, before `awaiters.push`
  | queued                        -- suspended on the pool
deriving DecidableEq

/-- Where a worker stands in `work_loop`. -/
inductive WorkerPc
  | pop
  | resume (rawAwaiter : ℕ)
  | resuming (rawAwaiter : ℕ)     -- inside `awaiter.resume()`
  | leave
  | exited
deriving DecidableEq

/-- Where `shutdown` stands. -/
inductive ShutdownPc
  | idle
  | pushSentinels (oldState : BitVec 32)
  | join
  | returned
deriving DecidableEq

/-- The members of the pool that its threads use, and where each thread stands. -/
structure Pool where
  poolState : BitVec 32
  /-- `queue::buffer` of the member `awaiters`, front first. -/
  awaiters : List ℕ
  worker : ℕ → WorkerPc

structure State extends Pool where
  coro : ℕ → CoroPc
  /-- The worker a coroutine is executing on, if any. -/
  host : ℕ → Option ℕ
  shutdown : ShutdownPc
  /-- History: how often the coroutine entered the pool, and how often a worker
  resumed it. -/
  entered : ℕ → ℕ
  resumed : ℕ → ℕ

/-- What moves next. `spurious` makes a weak compare-exchange fail although the
word holds the expected value. -/
inductive Act
  | start (c : ℕ)
  | yield (c : ℕ)
  | schedule (c : ℕ)
  | tryEnter (c : ℕ) (spurious : Bool)
  | push (c : ℕ)
  | work (w : ℕ)
  | shutdown
deriving DecidableEq

def Pool.initial : Pool where
  poolState := 0
  awaiters := []
  worker := fun _ => .pop

def initial : State where
  toPool := .initial
  coro := fun _ => .away
  host := fun _ => none
  shutdown := .idle
  entered := fun _ => 0
  resumed := fun _ => 0

def closed (state : BitVec 32) : Prop := state &&& closedFlag ≠ 0

instance (state : BitVec 32) : Decidable (closed state) :=
  inferInstanceAs (Decidable (_ ≠ _))

def State.goCoro (s : State) (c : ℕ) (pc : CoroPc) : State :=
  { s with coro := update s.coro c pc }

def Pool.goWorker (p : Pool) (w : ℕ) (pc : WorkerPc) : Pool :=
  { p with worker := update p.worker w pc }

/-- The compare-exchange of `try_awaiter_enter` succeeded. -/
def State.enter (s : State) (c : ℕ) : State :=
  { s with
    poolState := s.poolState + newAwaiterIncrement
    entered := update s.entered c (s.entered c + 1) }

/-- One attempt in the loop of `try_awaiter_enter`. -/
def tryEnterStep (s : State) (c : ℕ) (spurious : Bool) : Option State :=
  match s.coro c with
  | .tryEnter state =>
      -- pool is closed: `await_suspend` returns false and the coroutine goes on
      if closed state then some (s.goCoro c .running)
      else if s.poolState = state ∧ spurious = false then some ((s.enter c).goCoro c .push)
      else some (s.goCoro c (.tryEnter s.poolState))
  | _ => none

/-- `pool.awaiters.push`; from here on the coroutine is suspended and off its host. -/
def State.push (s : State) (c : ℕ) : State :=
  { s with
    awaiters := s.awaiters ++ [c]
    coro := update s.coro c .queued
    host := update s.host c none }

/-- One step of `work_loop`, as far as the pool goes. -/
def Pool.work (p : Pool) (w : ℕ) : Option Pool :=
  match p.worker w with
  | .pop =>
      match p.awaiters with
      | [] => none
      | rawAwaiter :: rest =>
          some ({ p with awaiters := rest }.goWorker w
            (if rawAwaiter = sentinelAwaiter then .exited else .resume rawAwaiter))
  | .resume c => some (p.goWorker w (.resuming c))
  | .resuming _ => some (p.goWorker w .leave)
  | .leave => some ({ p with poolState := p.poolState - newAwaiterIncrement }.goWorker w .pop)
  | .exited => none

/-- `awaiter.resume()` on worker `w`. -/
def State.resume (s : State) (w c : ℕ) : State :=
  { s with
    coro := update s.coro c .running
    host := update s.host c (some w)
    resumed := update s.resumed c (s.resumed c + 1) }

/-- One step of `work_loop`. The call of `resume` returns once the coroutine no
longer executes on this worker. -/
def workStep (s : State) (w : ℕ) : Option State :=
  match s.worker w with
  | .resume c => (s.work w).map fun p => { s with toPool := p }.resume w c
  | .resuming c =>
      if s.host c = some w then none else (s.work w).map fun p => { s with toPool := p }
  | _ => (s.work w).map fun p => { s with toPool := p }

/-- One step of `shutdown` on a pool of `nThreads` workers. -/
def shutdownStep (nThreads : ℕ) (s : State) : Option State :=
  match s.shutdown with
  | .idle => some { s with
      poolState := s.poolState ||| closedFlag
      shutdown := .pushSentinels s.poolState }
  | .pushSentinels oldState => some { s with
      awaiters := if closed oldState then s.awaiters
        else s.awaiters ++ List.replicate nThreads sentinelAwaiter
      shutdown := .join }
  | .join =>
      if ∀ w < nThreads, s.worker w = .exited then some { s with shutdown := .returned }
      else none
  | .returned => none

def step (nThreads : ℕ) (s : State) : Act → Option State
  | .start c =>
      if c ≠ 0 ∧ s.coro c = .away then some (s.goCoro c .running) else none
  -- the coroutine finishes, or suspends on something else
  | .yield c =>
      if s.coro c = .running then
        some ({ s with host := update s.host c none }.goCoro c .away)
      else none
  | .schedule c =>
      if s.coro c = .running then some (s.goCoro c (.tryEnter s.poolState)) else none
  | .tryEnter c spurious => tryEnterStep s c spurious
  | .push c => if s.coro c = .push then some (s.push c) else none
  | .work w => if w < nThreads then workStep s w else none
  | .shutdown => shutdownStep nThreads s

def system (nThreads : ℕ) : System State Act where
  Init s := s = initial
  step := step nThreads

/-! ## What shutdown promises -/

/-- Once `shutdown` has returned, each coroutine was resumed on the pool once for
every time it entered, and the queue holds no handle. -/
def State.Drained (s : State) : Prop :=
  s.shutdown = .returned →
    (∀ c, s.resumed c = s.entered c) ∧ ∀ x ∈ s.awaiters, x = sentinelAwaiter

/-- The coroutine enters; the pool closes, its worker takes the sentinel and is
joined; only then is the handle pushed. -/
def pushedAfterSentinels : List Act :=
  [.start 5, .schedule 5, .tryEnter 5 false, .shutdown, .shutdown, .work 0, .push 5, .shutdown]

theorem not_drained_after_late_push :
    ¬ ∀ nThreads, 0 < nThreads → ∀ s, (system nThreads).Reachable s → s.Drained := by
  intro h
  have hr : (system 1).Reachable initial := .init rfl
  have hd := h 1 (by decide) _ (hr.run pushedAfterSentinels rfl) rfl
  exact absurd (hd.2 5 (by decide)) (by decide)

/-! ## The loop of a worker -/

theorem closed_add (state : BitVec 32) :
    closed (state + newAwaiterIncrement) ↔ closed state :=
  FlagWord.flagged_add_two (by decide) state

theorem closed_sub (state : BitVec 32) :
    closed (state - newAwaiterIncrement) ↔ closed state :=
  FlagWord.flagged_sub_two (by decide) state

theorem closed_or (state : BitVec 32) : closed (state ||| closedFlag) :=
  FlagWord.flagged_or_one (by decide) state

/-- The sentinels in the queue and those that a worker has left its loop with. -/
def Pool.sentinels (p : Pool) (nThreads : ℕ) : ℕ :=
  p.awaiters.count sentinelAwaiter + tally nThreads (· = .exited) p.worker

/-- No worker resumes a sentinel. -/
def Pool.Proper (p : Pool) : Prop := ∀ w, p.worker w ≠ .resume sentinelAwaiter

/-- What a worker can do. -/
inductive Pool.Works (p : Pool) (w : ℕ) : Pool → Prop
  | handle {c : ℕ} {rest : List ℕ} (hpc : p.worker w = .pop) (hq : p.awaiters = c :: rest)
      (hc : c ≠ sentinelAwaiter) :
      Works p w ({ p with awaiters := rest }.goWorker w (.resume c))
  | sentinel {rest : List ℕ} (hpc : p.worker w = .pop)
      (hq : p.awaiters = sentinelAwaiter :: rest) :
      Works p w ({ p with awaiters := rest }.goWorker w .exited)
  | resume {c : ℕ} (hpc : p.worker w = .resume c) : Works p w (p.goWorker w (.resuming c))
  | resumed {c : ℕ} (hpc : p.worker w = .resuming c) : Works p w (p.goWorker w .leave)
  | leave (hpc : p.worker w = .leave) :
      Works p w ({ p with poolState := p.poolState - newAwaiterIncrement }.goWorker w .pop)

section
variable {nThreads : ℕ} {p p' : Pool} {w : ℕ}

theorem works_of_work (h : p.work w = some p') : p.Works w p' := by
  unfold Pool.work at h
  split at h
  · rename_i hpc
    split at h
    · cases h
    · rename_i rawAwaiter rest hq
      cases h
      by_cases hraw : rawAwaiter = sentinelAwaiter
      · rw [if_pos hraw]
        exact .sentinel hpc (hraw ▸ hq)
      · rw [if_neg hraw]
        exact .handle hpc hq hraw
  · cases h
    exact .resume ‹_›
  · cases h
    exact .resumed ‹_›
  · cases h
    exact .leave ‹_›
  · cases h

theorem Pool.Works.not_exited (h : p.Works w p') : p.worker w ≠ .exited := by
  cases h with
  | handle hpc | sentinel hpc | resume hpc | resumed hpc | leave hpc =>
      rw [hpc]
      simp

theorem Pool.Works.closed_iff (h : p.Works w p') : closed p'.poolState ↔ closed p.poolState := by
  cases h with
  | handle | sentinel | resume | resumed => exact Iff.rfl
  | leave => exact closed_sub _

theorem Pool.Works.proper (h : p.Works w p') (hp : p.Proper) : p'.Proper := by
  have hgo : ∀ {pc : WorkerPc}, pc ≠ .resume sentinelAwaiter →
      ∀ v, update p.worker w pc v ≠ .resume sentinelAwaiter := fun hpc =>
    (forall_update_iff p.worker fun _ x => x ≠ .resume sentinelAwaiter).mpr
      ⟨hpc, fun v _ => hp v⟩
  cases h with
  | handle hpc hq hc => exact hgo (by simpa using hc)
  | sentinel | resume | resumed | leave => exact hgo (by simp)

/-- **A sentinel that is taken ends a worker**, and nothing else does. -/
theorem Pool.Works.sentinels (h : p.Works w p') (hw : w < nThreads) :
    p'.sentinels nThreads = p.sentinels nThreads := by
  have hin := h.not_exited
  cases h with
  | handle hpc hq hc =>
      rw [Pool.sentinels, Pool.sentinels, hq, List.count_cons_of_ne hc]
      exact congrArg _ (tally_update_of_not hw hin (by simp))
  | sentinel hpc hq =>
      have hmove := tally_update (p := (· = WorkerPc.exited)) (f := p.worker) hw .exited
      rw [if_neg hin, if_pos rfl] at hmove
      rw [Pool.sentinels, Pool.sentinels, hq, List.count_cons_self, Nat.add_right_comm]
      exact (congrArg _ hmove).trans (Nat.add_assoc _ _ _).symm
  | resume | resumed | leave => exact congrArg _ (tally_update_of_not hw hin (by simp))

end

/-! ## What every interleaving keeps -/

/-- The coroutine is executing. -/
def CoroPc.Runs : CoroPc → Prop
  | .away => False
  | .running => True
  | .tryEnter _ => True
  | .push => True
  | .queued => False

/-- The sentinels are in the queue, or were. -/
def ShutdownPc.pushed : ShutdownPc → Bool
  | .join | .returned => true
  | _ => false

/-- The closed flag and the sentinels come with `shutdown`, and with nothing else. -/
def State.Closing (s : State) : Prop :=
  match s.shutdown with
  | .idle => ¬ closed s.poolState
  | .pushSentinels oldState => ¬ closed oldState ∧ closed s.poolState
  | .join => closed s.poolState
  | .returned => closed s.poolState

structure Sane (nThreads : ℕ) (s : State) : Prop where
  address : ∀ c, s.coro c ≠ .away → c ≠ sentinelAwaiter
  hosted : ∀ c w, s.host c = some w → (s.coro c).Runs
  proper : s.Proper
  sentinels : s.sentinels nThreads = if s.shutdown.pushed then nThreads else 0
  closing : s.Closing
  joined : s.shutdown = .returned → ∀ w < nThreads, s.worker w = .exited

theorem initial_sane (nThreads : ℕ) : Sane nThreads initial where
  address _ hc := absurd rfl hc
  hosted _ _ hhost := nomatch hhost
  proper _ := by simp [initial, Pool.initial]
  sentinels := by simp [initial, Pool.initial, Pool.sentinels, tally, ShutdownPc.pushed]
  closing := by simp [State.Closing, initial, Pool.initial, closed]
  joined hreturned := by simp [initial] at hreturned

section
variable {nThreads : ℕ} {s s' : State}

theorem closing_congr {t : State} (h : s.Closing) (hshutdown : t.shutdown = s.shutdown)
    (hflag : closed t.poolState ↔ closed s.poolState) : t.Closing := by
  unfold State.Closing at h ⊢
  rw [hshutdown, hflag]
  exact h

/-- A coroutine moves. -/
theorem Sane.goCoro (h : Sane nThreads s) {c : ℕ} (hc : c ≠ sentinelAwaiter) {pc : CoroPc}
    {host : ℕ → Option ℕ} {awaiters : List ℕ} {poolState : BitVec 32} {entered resumed : ℕ → ℕ}
    (hothers : ∀ d, d ≠ c → host d = s.host d) (hruns : ∀ w, host c = some w → pc.Runs)
    (hcount : awaiters.count sentinelAwaiter = s.awaiters.count sentinelAwaiter)
    (hflag : closed poolState ↔ closed s.poolState) :
    Sane nThreads { s with
      poolState := poolState
      awaiters := awaiters
      coro := update s.coro c pc
      host := host
      entered := entered
      resumed := resumed } := by
  refine ⟨?_, ?_, h.proper, ?_, closing_congr h.closing rfl hflag, h.joined⟩
  · intro d hd
    have hd : update s.coro c pc d ≠ .away := hd
    by_cases hdc : d = c
    · rw [hdc]
      exact hc
    · rw [update_of_ne hdc] at hd
      exact h.address d hd
  · intro d w hd
    have hd : host d = some w := hd
    show (update s.coro c pc d).Runs
    by_cases hdc : d = c
    · subst hdc
      rw [update_self]
      exact hruns w hd
    · rw [update_of_ne hdc]
      rw [hothers d hdc] at hd
      exact h.hosted d w hd
  · show awaiters.count sentinelAwaiter + _ = _
    rw [hcount]
    exact h.sentinels

theorem tryEnterStep_sane (h : Sane nThreads s) {c : ℕ} {spurious : Bool}
    (hs : tryEnterStep s c spurious = some s') : Sane nThreads s' := by
  unfold tryEnterStep at hs
  split at hs
  · rename_i state hpc
    have hc := h.address c (by simp [hpc])
    split at hs
    · cases hs
      exact h.goCoro hc (fun _ _ => rfl) (fun _ _ => trivial) rfl Iff.rfl
    · split at hs
      · cases hs
        exact h.goCoro hc (fun _ _ => rfl) (fun _ _ => trivial) rfl (closed_add _)
      · cases hs
        exact h.goCoro hc (fun _ _ => rfl) (fun _ _ => trivial) rfl Iff.rfl
  · cases hs

theorem Sane.push (h : Sane nThreads s) {c : ℕ} (hpc : s.coro c = .push) :
    Sane nThreads (s.push c) := by
  have hc := h.address c (by simp [hpc])
  refine h.goCoro hc (fun d hd => update_of_ne hd _ _) (fun w hw => ?_) ?_ Iff.rfl
  · rw [update_self] at hw
    cases hw
  · rw [List.count_append, List.count_cons_of_ne hc]
    rfl

theorem Sane.yield (h : Sane nThreads s) {c : ℕ} (hpc : s.coro c = .running) :
    Sane nThreads ({ s with host := update s.host c none }.goCoro c .away) := by
  refine h.goCoro (h.address c (by simp [hpc])) (fun d hd => update_of_ne hd _ _) (fun w hw => ?_)
    rfl Iff.rfl
  have hw : update s.host c none c = some w := hw
  rw [update_self] at hw
  cases hw

/-- A worker moves. -/
theorem Sane.work (h : Sane nThreads s) {w : ℕ} {p : Pool} (hw : w < nThreads)
    (hp : s.Works w p) : Sane nThreads { s with toPool := p } where
  address := h.address
  hosted := h.hosted
  proper := hp.proper h.proper
  sentinels := (hp.sentinels hw).trans h.sentinels
  closing := closing_congr h.closing rfl hp.closed_iff
  joined hreturned := absurd (h.joined hreturned w hw) hp.not_exited

theorem Sane.resume (h : Sane nThreads s) {w c : ℕ} (hw : w < nThreads)
    (hpc : s.worker w = .resume c) :
    Sane nThreads ({ s with toPool := s.goWorker w (.resuming c) }.resume w c) := by
  have hc : c ≠ sentinelAwaiter := by
    rintro rfl
    exact h.proper w hpc
  exact (h.work hw (.resume hpc)).goCoro hc (fun d hd => update_of_ne hd (some w) s.host)
    (fun _ _ => trivial) rfl Iff.rfl

end

/-- A step of a worker is one of the pool; a coroutine that it resumes comes with it, and one that
it has resumed is gone. -/
inductive WorkCase (s : State) (w : ℕ) : State → Prop
  | resume {c : ℕ} (hpc : s.worker w = .resume c) :
      WorkCase s w ({ s with toPool := s.goWorker w (.resuming c) }.resume w c)
  | pool {p : Pool} (hp : s.Works w p) (hpc : ∀ c, s.worker w ≠ .resume c) :
      WorkCase s w { s with toPool := p }

section
variable {nThreads : ℕ} {s s' : State}

theorem workStep_case {w : ℕ} (hs : workStep s w = some s') : WorkCase s w s' := by
  have hpool : (∀ c, s.worker w ≠ .resume c) →
      ((s.work w).map fun p => { s with toPool := p }) = some s' → WorkCase s w s' := by
    intro hpc hmap
    obtain ⟨p, hp, rfl⟩ := Option.map_eq_some_iff.mp hmap
    exact .pool (works_of_work hp) hpc
  unfold workStep at hs
  split at hs
  · rename_i hpc
    rw [Pool.work, hpc] at hs
    cases hs
    exact .resume hpc
  · rename_i hpc
    split at hs
    · cases hs
    · exact hpool (by simp [hpc]) hs
  · rename_i hnot _
    exact hpool hnot hs

theorem workStep_sane (h : Sane nThreads s) {w : ℕ} (hw : w < nThreads)
    (hs : workStep s w = some s') : Sane nThreads s' := by
  cases workStep_case hs with
  | resume hpc => exact h.resume hw hpc
  | pool hp _ => exact h.work hw hp

theorem shutdownStep_sane (h : Sane nThreads s) (hs : shutdownStep nThreads s = some s') :
    Sane nThreads s' := by
  have hclosing := h.closing
  have hsent := h.sentinels
  unfold State.Closing at hclosing
  unfold shutdownStep at hs
  split at hs
  · rename_i hpc
    rw [hpc] at hclosing hsent
    cases hs
    exact ⟨h.address, h.hosted, h.proper, hsent, ⟨hclosing, closed_or _⟩, fun hnot => nomatch hnot⟩
  · rename_i oldState hpc
    rw [hpc] at hclosing hsent
    cases hs
    refine ⟨h.address, h.hosted, h.proper, ?_, hclosing.2, fun hnot => nomatch hnot⟩
    show List.count sentinelAwaiter (if closed oldState then _ else _) +
      tally nThreads (· = .exited) s.worker = nThreads
    simp only [Pool.sentinels, ShutdownPc.pushed, Bool.false_eq_true, if_false] at hsent
    rw [if_neg hclosing.1, List.count_append, List.count_replicate_self]
    omega
  · rename_i hpc
    split at hs
    · rename_i hall
      rw [hpc] at hclosing hsent
      cases hs
      exact ⟨h.address, h.hosted, h.proper, hsent, hclosing, fun _ => hall⟩
    · cases hs
  · cases hs

theorem step_sane {act : Act} (h : Sane nThreads s) (hs : step nThreads s act = some s') :
    Sane nThreads s' := by
  cases act with
  | start c =>
      obtain ⟨⟨hc, -⟩, heq⟩ := Option.ite_none_right_eq_some.mp hs
      rw [← Option.some.inj heq]
      exact h.goCoro hc (fun _ _ => rfl) (fun _ _ => trivial) rfl Iff.rfl
  | yield c =>
      obtain ⟨hpc, heq⟩ := Option.ite_none_right_eq_some.mp hs
      rw [← Option.some.inj heq]
      exact h.yield hpc
  | schedule c =>
      obtain ⟨hpc, heq⟩ := Option.ite_none_right_eq_some.mp hs
      rw [← Option.some.inj heq]
      exact h.goCoro (h.address c (by simp [hpc])) (fun _ _ => rfl) (fun _ _ => trivial) rfl Iff.rfl
  | tryEnter c spurious => exact tryEnterStep_sane h hs
  | push c =>
      obtain ⟨hpc, heq⟩ := Option.ite_none_right_eq_some.mp hs
      rw [← Option.some.inj heq]
      exact h.push hpc
  | work w =>
      obtain ⟨hw, hs⟩ := Option.ite_none_right_eq_some.mp hs
      exact workStep_sane h hw hs
  | shutdown => exact shutdownStep_sane h hs

theorem reachable_sane (h : (system nThreads).Reachable s) : Sane nThreads s := by
  apply h.invariant
  · rintro _ rfl
    exact initial_sane nThreads
  · exact fun _ _ _ hsane _ hs => step_sane hsane hs

end

end Coroutines.ThreadPool
