import Coroutines.ThreadPool

/-!
# The lifetime of a thread pool

`applications/threadpool/thread_pool.hpp` again, from the first call to the end of the destructor.
The client schedules handles and calls `shutdown` in any order, any number of times, and destroys
the pool. Closing and sentinels go by the closed bit, joining by the flag `joined`: `shutdown`
tests only the first and the destructor only the second.

A handle comes in through `schedule`, as in `pool_awaiter::await_suspend`. `std::thread::join`
waits for the thread, and throws when the thread was joined before.
-/

namespace Coroutines.ThreadPool.Lifetime

open Transition Tally Function

/-! ## The model -/

/-- Where the client stands. -/
inductive CallerPc
  | ready
  | tryEnter (handle : ℕ) (state : BitVec 32)
  | push (handle : ℕ)
  | pushSentinels (oldState : BitVec 32)
  | join (i : ℕ) (destroying : Bool)      -- in the loop of `join`, before `threads[i].join()`
  | threw
  | destroyed
deriving DecidableEq

structure State extends Pool where
  joined : Bool
  /-- `threads[i].joinable()`. -/
  joinable : ℕ → Bool
  caller : CallerPc
  /-- History: the calls of `shutdown`, the sentinels enqueued, and how often each thread was
  joined. -/
  shutdowns : ℕ
  sentinels : ℕ
  joins : ℕ → ℕ

/-- What moves next: the client makes a call, goes on with it, or a worker moves. -/
inductive Act
  | callSchedule (handle : ℕ)
  | callShutdown
  | destroy
  | go (spurious : Bool)
  | work (w : ℕ)
deriving DecidableEq

def initial : State where
  toPool := .initial
  joined := false
  joinable := fun _ => true
  caller := .ready
  shutdowns := 0
  sentinels := 0
  joins := fun _ => 0

/-- One step of `work_loop`; a call of `resume` returns. -/
def workStep (s : State) (w : ℕ) : Option State :=
  (s.work w).map fun p => { s with toPool := p }

/-- One round of the loop of `join`, or what follows it. -/
def joinStep (nThreads : ℕ) (s : State) (i : ℕ) (destroying : Bool) : Option State :=
  if i < nThreads then
    if s.joinable i = false then some { s with caller := .threw }
    else if s.worker i = .exited then
      some { s with
        joinable := update s.joinable i false
        joins := update s.joins i (s.joins i + 1)
        caller := .join (i + 1) destroying }
    else none
  else some { s with joined := true, caller := if destroying then .destroyed else .ready }

/-- The client goes on with its call. -/
def goStep (nThreads : ℕ) (s : State) (spurious : Bool) : Option State :=
  match s.caller with
  | .tryEnter handle state =>
      -- pool is closed: `await_suspend` returns false
      if closed state then some { s with caller := .ready }
      else if s.poolState = state ∧ spurious = false then
        some { s with poolState := s.poolState + newAwaiterIncrement, caller := .push handle }
      else some { s with caller := .tryEnter handle s.poolState }
  | .push handle => some { s with awaiters := s.awaiters ++ [handle], caller := .ready }
  | .pushSentinels oldState =>
      if closed oldState then some { s with caller := .join 0 false }
      else some { s with
        awaiters := s.awaiters ++ List.replicate nThreads sentinelAwaiter
        sentinels := s.sentinels + nThreads
        caller := .join 0 false }
  | .join i destroying => joinStep nThreads s i destroying
  | .ready | .threw | .destroyed => none

def step (nThreads : ℕ) (s : State) : Act → Option State
  | .callSchedule handle =>
      if s.caller = .ready ∧ handle ≠ sentinelAwaiter then
        some { s with caller := .tryEnter handle s.poolState }
      else none
  | .callShutdown =>
      if s.caller = .ready then
        some { s with
          poolState := s.poolState ||| closedFlag
          caller := .pushSentinels s.poolState
          shutdowns := s.shutdowns + 1 }
      else none
  | .destroy =>
      if s.caller = .ready then
        some { s with caller := if s.joined then .destroyed else .join 0 true }
      else none
  | .go spurious => goStep nThreads s spurious
  | .work w => if w < nThreads then workStep s w else none

def system (nThreads : ℕ) : System State Act where
  Init s := s = initial
  step := step nThreads

/-! ## What the end of a pool promises -/

def State.Joining (s : State) : Prop := ∃ i destroying, s.caller = .join i destroying

structure State.Sound (nThreads : ℕ) (s : State) : Prop where
  /-- One sentinel for each worker has been enqueued when the threads are joined. -/
  supplied : s.Joining → s.sentinels = nThreads
  /-- A worker that is still in its loop is not stuck in it. -/
  leaves : s.Joining → ∀ w < nThreads, s.worker w ≠ .exited → ∃ t, workStep s w = some t
  once : ∀ w < nThreads, s.joins w ≤ 1
  all : s.caller = .destroyed → ∀ w < nThreads, s.joins w = 1
  quiet : s.caller ≠ .threw

/-- The pool is destroyed without a call of `shutdown`: the workers wait for ever. -/
theorem not_sound_without_shutdown :
    ¬ ∀ nThreads, 0 < nThreads → ∀ s, (system nThreads).Reachable s → s.Sound nThreads := by
  intro h
  have h0 : (system 1).Reachable initial := .init rfl
  have hsound := h 1 Nat.one_pos _ (h0.run [.destroy] rfl)
  exact absurd (hsound.supplied ⟨0, true, rfl⟩) (by decide)

/-! ## One call of shutdown -/

/-- `shutdown` is called once, before the pool is destroyed. -/
def Once (s : State) : Act → Prop
  | .callShutdown => s.shutdowns = 0
  | .destroy => s.shutdowns = 1
  | _ => True

/-- The threads below `i` have been joined, once, and no others. -/
def State.JoinedUpTo (s : State) (i : ℕ) : Prop :=
  ∀ w, s.joins w = (if w < i then 1 else 0) ∧ (s.joinable w = false ↔ w < i)

/-- Before the call of `shutdown`. -/
structure State.Open (s : State) : Prop where
  shutdowns : s.shutdowns = 0
  joined : s.joined = false
  sentinels : s.sentinels = 0
  flag : ¬ closed s.poolState
  upTo : s.JoinedUpTo 0

/-- After the call of `shutdown`. -/
structure State.Closed (nThreads : ℕ) (s : State) : Prop where
  shutdowns : s.shutdowns = 1
  joined : s.joined = true
  upTo : s.JoinedUpTo nThreads

/-- How far the pool is in its life. -/
def State.Phase (nThreads : ℕ) (s : State) : Prop :=
  match s.caller with
  | .ready => s.Open ∨ s.Closed nThreads
  | .tryEnter handle _ | .push handle =>
      handle ≠ sentinelAwaiter ∧ (s.Open ∨ s.Closed nThreads)
  | .pushSentinels oldState =>
      ¬ closed oldState ∧ s.shutdowns = 1 ∧ s.sentinels = 0 ∧ s.JoinedUpTo 0
  | .join i destroying =>
      destroying = false ∧ s.shutdowns = 1 ∧ s.sentinels = nThreads ∧ i ≤ nThreads ∧
        s.JoinedUpTo i
  | .threw => False
  | .destroyed => s.JoinedUpTo nThreads

/-- Every sentinel is in the queue, or a worker has left its loop with it. -/
structure Inv (nThreads : ℕ) (s : State) : Prop where
  ledger : s.toPool.sentinels nThreads = s.sentinels
  phase : s.Phase nThreads

theorem initial_inv (nThreads : ℕ) : Inv nThreads initial where
  ledger := by simp [initial, Pool.initial, Pool.sentinels, tally]
  phase := Or.inl ⟨rfl, rfl, rfl, by decide, fun w => by simp [initial]⟩

section
variable {nThreads : ℕ} {s s' : State}

theorem State.JoinedUpTo.le_one {i : ℕ} (h : s.JoinedUpTo i) (w : ℕ) : s.joins w ≤ 1 := by
  rw [(h w).1]
  split
  · exact le_refl 1
  · exact Nat.zero_le 1

/-- In every phase the threads have been joined up to some point. -/
theorem State.Phase.upTo (h : s.Phase nThreads) : ∃ i, s.JoinedUpTo i := by
  have hidle : s.Open ∨ s.Closed nThreads → ∃ i, s.JoinedUpTo i := by
    rintro (hopen | hclosed)
    · exact ⟨0, hopen.upTo⟩
    · exact ⟨nThreads, hclosed.upTo⟩
  unfold State.Phase at h
  split at h
  · exact hidle h
  · exact hidle h.2
  · exact hidle h.2
  · exact ⟨0, h.2.2.2⟩
  · exact ⟨_, h.2.2.2.2⟩
  · exact h.elim
  · exact ⟨nThreads, h⟩

/-- **A worker that has not left can move**, while there is a sentinel for each worker. -/
theorem work_of_sentinels {p : Pool} (h : p.sentinels nThreads = nThreads) {w : ℕ}
    (hw : w < nThreads) (hin : p.worker w ≠ .exited) : ∃ p', p.work w = some p' := by
  unfold Pool.work
  cases hpc : p.worker w with
  | pop =>
      cases hawaiters : p.awaiters with
      | nil =>
          have hlt := tally_lt (p := (· = WorkerPc.exited)) (f := p.worker) hw hin
          rw [Pool.sentinels, hawaiters, List.count_nil, Nat.zero_add] at h
          exact absurd h (Nat.ne_of_lt hlt)
      | cons rawAwaiter rest => exact ⟨_, rfl⟩
  | resume | resuming | leave => exact ⟨_, rfl⟩
  | exited => exact absurd hpc hin

theorem Inv.leaves (h : Inv nThreads s) (hsentinels : s.sentinels = nThreads) {w : ℕ}
    (hw : w < nThreads) (hin : s.worker w ≠ .exited) : ∃ t, workStep s w = some t := by
  obtain ⟨p, hp⟩ := work_of_sentinels (h.ledger.trans hsentinels) hw hin
  rw [workStep, hp]
  exact ⟨_, rfl⟩

theorem Inv.sound (h : Inv nThreads s) : s.Sound nThreads := by
  have hphase := h.phase
  obtain ⟨i, hupTo⟩ := hphase.upTo
  have hsupplied : s.Joining → s.sentinels = nThreads := by
    rintro ⟨i, destroying, hcaller⟩
    rw [State.Phase, hcaller] at hphase
    exact hphase.2.2.1
  refine ⟨hsupplied, fun hjoining w hw hin => h.leaves (hsupplied hjoining) hw hin,
    fun w _ => hupTo.le_one w, fun hcaller w hw => ?_, fun hcaller => ?_⟩
  · rw [State.Phase, hcaller] at hphase
    rw [(hphase w).1, if_pos hw]
  · rw [State.Phase, hcaller] at hphase
    exact hphase

/-- Nothing happens to what `Open` and `Closed` speak of. -/
theorem idle_of_eq (h : s.Open ∨ s.Closed nThreads)
    (hflag : closed s'.poolState → closed s.poolState) (hjoined : s'.joined = s.joined)
    (hshutdowns : s'.shutdowns = s.shutdowns) (hsentinels : s'.sentinels = s.sentinels)
    (hupTo : ∀ i, s.JoinedUpTo i → s'.JoinedUpTo i) : s'.Open ∨ s'.Closed nThreads := by
  rcases h with hopen | hclosed
  · exact Or.inl ⟨hshutdowns.trans hopen.shutdowns, hjoined.trans hopen.joined,
      hsentinels.trans hopen.sentinels, mt hflag hopen.flag, hupTo 0 hopen.upTo⟩
  · exact Or.inr ⟨hshutdowns.trans hclosed.shutdowns, hjoined.trans hclosed.joined,
      hupTo nThreads hclosed.upTo⟩

/-! ### The workers move -/

/-- A worker may count down, and the closed bit stays. -/
theorem State.Phase.work {p : Pool} (h : s.Phase nThreads)
    (hflag : closed p.poolState ↔ closed s.poolState) :
    State.Phase nThreads { s with toPool := p } := by
  set t : State := { s with toPool := p }
  have hidle : s.Open ∨ s.Closed nThreads → t.Open ∨ t.Closed nThreads :=
    fun hs => idle_of_eq hs hflag.mp rfl rfl rfl fun _ => id
  have hsame : t.caller = s.caller := rfl
  unfold State.Phase at h ⊢
  rw [hsame]
  cases hcaller : s.caller with
  | ready =>
      rw [hcaller] at h
      exact hidle h
  | tryEnter handle state | push handle =>
      rw [hcaller] at h
      exact ⟨h.1, hidle h.2⟩
  | pushSentinels oldState | join i destroying | threw | destroyed =>
      rw [hcaller] at h
      exact h

theorem workStep_inv {w : ℕ} (h : Inv nThreads s) (hw : w < nThreads)
    (hs : workStep s w = some s') : Inv nThreads s' := by
  obtain ⟨p, hp, rfl⟩ := Option.map_eq_some_iff.mp hs
  have hworks := works_of_work hp
  exact ⟨(hworks.sentinels hw).trans h.ledger, h.phase.work hworks.closed_iff⟩

/-! ### The client moves -/

/-- The next thread has been joined. -/
theorem State.JoinedUpTo.succ {i : ℕ} {caller : CallerPc} (h : s.JoinedUpTo i) :
    State.JoinedUpTo { s with
      joinable := update s.joinable i false
      joins := update s.joins i (s.joins i + 1)
      caller := caller } (i + 1) := by
  intro w
  show update s.joins i (s.joins i + 1) w = _ ∧ (update s.joinable i false w = false ↔ _)
  rcases eq_or_ne w i with rfl | hne
  · rw [update_self, update_self, (h w).1, if_neg (Nat.lt_irrefl w), if_pos (Nat.lt_succ_self w)]
    exact ⟨rfl, iff_of_true rfl (Nat.lt_succ_self w)⟩
  · have hlt : w < i ↔ w < i + 1 := by omega
    rw [update_of_ne hne, update_of_ne hne]
    simpa only [hlt] using h w

theorem joinStep_inv {i : ℕ} {destroying : Bool} (h : Inv nThreads s)
    (hcaller : s.caller = .join i destroying)
    (hs : joinStep nThreads s i destroying = some s') : Inv nThreads s' := by
  have hphase := h.phase
  rw [State.Phase, hcaller] at hphase
  obtain ⟨rfl, hshutdowns, hsentinels, hle, hupTo⟩ := hphase
  unfold joinStep at hs
  split at hs
  · rename_i hlt
    have hjoinable : ¬ s.joinable i = false := fun hnot => Nat.lt_irrefl i ((hupTo i).2.mp hnot)
    rw [if_neg hjoinable] at hs
    split at hs
    · cases hs
      exact ⟨h.ledger, rfl, hshutdowns, hsentinels, hlt, hupTo.succ⟩
    · cases hs
  · rename_i hend
    obtain rfl : i = nThreads := Nat.le_antisymm hle (Nat.le_of_not_lt hend)
    cases hs
    exact ⟨h.ledger, Or.inr ⟨hshutdowns, rfl, hupTo⟩⟩

theorem goStep_inv {spurious : Bool} (h : Inv nThreads s)
    (hs : goStep nThreads s spurious = some s') : Inv nThreads s' := by
  have hphase := h.phase
  have hledger := h.ledger
  unfold goStep at hs
  rcases hcaller : s.caller with _ | ⟨handle, state⟩ | handle | oldState | ⟨i, destroying⟩ | _ | _
  · rw [hcaller] at hs
    cases hs
  · rw [hcaller] at hs
    rw [State.Phase, hcaller] at hphase
    obtain ⟨hne, hidle⟩ := hphase
    simp only at hs
    split at hs
    · cases hs
      exact ⟨hledger, idle_of_eq hidle id rfl rfl rfl fun _ => id⟩
    · split at hs
      · cases hs
        exact ⟨hledger, hne, idle_of_eq hidle (closed_add _).mp rfl rfl rfl fun _ => id⟩
      · cases hs
        exact ⟨hledger, hne, idle_of_eq hidle id rfl rfl rfl fun _ => id⟩
  · rw [hcaller] at hs
    rw [State.Phase, hcaller] at hphase
    obtain ⟨hne, hidle⟩ := hphase
    cases hs
    refine ⟨?_, idle_of_eq hidle id rfl rfl rfl fun _ => id⟩
    show (s.awaiters ++ [handle]).count sentinelAwaiter + _ = s.sentinels
    rw [List.count_append, List.count_cons_of_ne hne, List.count_nil, Nat.add_zero]
    exact hledger
  · rw [hcaller] at hs
    rw [State.Phase, hcaller] at hphase
    obtain ⟨hopen, hshutdowns, hsentinels, hupTo⟩ := hphase
    simp only at hs
    rw [if_neg hopen] at hs
    cases hs
    refine ⟨?_, rfl, hshutdowns, ?_, Nat.zero_le _, hupTo⟩
    · show (s.awaiters ++ List.replicate nThreads sentinelAwaiter).count sentinelAwaiter +
        tally nThreads (· = .exited) s.worker = s.sentinels + nThreads
      rw [List.count_append, List.count_replicate_self, ← hledger, Pool.sentinels]
      omega
    · show s.sentinels + nThreads = nThreads
      rw [hsentinels, Nat.zero_add]
  · rw [hcaller] at hs
    exact joinStep_inv h hcaller hs
  · rw [hcaller] at hs
    cases hs
  · rw [hcaller] at hs
    cases hs

theorem step_inv {act : Act} (h : Inv nThreads s) (hok : Once s act)
    (hs : step nThreads s act = some s') : Inv nThreads s' := by
  have hphase := h.phase
  cases act with
  | callSchedule handle =>
      simp only [step] at hs
      split at hs
      · rename_i hcall
        rw [State.Phase, hcall.1] at hphase
        have hidle : s.Open ∨ s.Closed nThreads := hphase
        cases hs
        exact ⟨h.ledger, hcall.2, idle_of_eq hidle id rfl rfl rfl fun _ => id⟩
      · cases hs
  | callShutdown =>
      simp only [step] at hs
      split at hs
      · rename_i hcaller
        rw [State.Phase, hcaller] at hphase
        have hzero : s.shutdowns = 0 := hok
        rcases hphase with hopen | hclosed
        · cases hs
          exact ⟨h.ledger, hopen.flag, congrArg (· + 1) hzero, hopen.sentinels, hopen.upTo⟩
        · exact absurd (hclosed.shutdowns.symm.trans hzero) Nat.one_ne_zero
      · cases hs
  | destroy =>
      simp only [step] at hs
      split at hs
      · rename_i hcaller
        rw [State.Phase, hcaller] at hphase
        have hone : s.shutdowns = 1 := hok
        rcases hphase with hopen | hclosed
        · exact absurd (hone.symm.trans hopen.shutdowns) Nat.one_ne_zero
        · rw [hclosed.joined] at hs
          cases hs
          exact ⟨h.ledger, hclosed.upTo⟩
      · cases hs
  | go spurious => exact goStep_inv h hs
  | work w =>
      simp only [step] at hs
      split at hs
      · rename_i hw
        exact workStep_inv h hw hs
      · cases hs

/-! ### A second shutdown, and none -/

/-- With or without the sentinels, `shutdown` goes on to join. -/
theorem pushSentinels_step (nThreads : ℕ) {oldState : BitVec 32}
    (hcaller : s.caller = .pushSentinels oldState) :
    ∃ t, step nThreads s (.go false) = some t ∧ t.caller = .join 0 false ∧
      t.joinable = s.joinable := by
  simp only [step, goStep, hcaller]
  split
  · exact ⟨_, rfl, rfl, rfl⟩
  · exact ⟨_, rfl, rfl, rfl⟩

/-- The first thread is not joinable any more. -/
theorem join_step_throws (hpos : 0 < nThreads) {destroying : Bool}
    (hcaller : s.caller = .join 0 destroying) (hjoinable : s.joinable 0 = false) :
    step nThreads s (.go false) = some { s with caller := .threw } := by
  simp only [step, goStep, hcaller, joinStep, if_pos hpos, if_pos hjoinable]

/-- **A second call of `shutdown`** joins the first thread again, and throws. -/
theorem Inv.second_shutdown (h : Inv nThreads s) (hpos : 0 < nThreads)
    (hs : step nThreads s .callShutdown = some s') (hagain : ¬ s.shutdowns = 0) :
    ∃ acts t, (system nThreads).run s' acts = some t ∧ ¬ t.Sound nThreads := by
  have hphase := h.phase
  simp only [step] at hs
  split at hs
  · rename_i hcaller
    rw [State.Phase, hcaller] at hphase
    rcases hphase with hopen | hclosed
    · exact absurd hopen.shutdowns hagain
    · have hjoinable : s.joinable 0 = false := (hclosed.upTo 0).2.mpr hpos
      cases hs
      obtain ⟨t, ht, hjoin, hsame⟩ := pushSentinels_step nThreads (s := { s with
        poolState := s.poolState ||| closedFlag
        caller := .pushSentinels s.poolState
        shutdowns := s.shutdowns + 1 }) rfl
      have hthrows := join_step_throws hpos hjoin ((congrFun hsame 0).trans hjoinable)
      refine ⟨[.go false, .go false], { t with caller := .threw }, ?_,
        fun hsound => hsound.quiet rfl⟩
      rw [System.run_cons _ ht, System.run_cons _ hthrows]
      rfl
  · cases hs

/-- **A pool that was never shut down** is joined without sentinels. -/
theorem Inv.never_shutdown (h : Inv nThreads s) (hpos : 0 < nThreads)
    (hs : step nThreads s .destroy = some s') (hnever : ¬ s.shutdowns = 1) :
    ¬ s'.Sound nThreads := by
  have hphase := h.phase
  simp only [step] at hs
  split at hs
  · rename_i hcaller
    rw [State.Phase, hcaller] at hphase
    rcases hphase with hopen | hclosed
    · rw [hopen.joined] at hs
      cases hs
      intro hsound
      have hsupplied : s.sentinels = nThreads := hsound.supplied ⟨0, true, rfl⟩
      rw [hopen.sentinels] at hsupplied
      exact absurd hsupplied (Nat.ne_of_lt hpos)
    · exact absurd hclosed.shutdowns hnever
  · cases hs

end

/-- **A pool ends well exactly when `shutdown` is called once.** For every number of workers,
every interleaving with them, and every sequence of `schedule` and `shutdown` calls that ends with
the destructor: as long as `shutdown` is called once and before the pool is destroyed, the threads
are joined with one sentinel for each in the queue and each worker on its way out, each is joined
once, and nothing throws; a second call of `shutdown` goes on to join a thread again, and a pool
that is destroyed without a call is joined without sentinels. -/
theorem sound_iff_shutdown_once (nThreads : ℕ) (hpos : 0 < nThreads) (s : State)
    (h : (system nThreads).ReachableUnder Once s) :
    s.Sound nThreads ∧ ∀ act t, step nThreads s act = some t → ¬ Once s act →
      ∃ acts u, (system nThreads).run t acts = some u ∧ ¬ u.Sound nThreads := by
  have hinv : Inv nThreads s := by
    apply h.invariant
    · rintro _ rfl
      exact initial_inv nThreads
    · exact fun _ _ _ hi hok hs => step_inv hi hok hs
  refine ⟨hinv.sound, fun act t hs hnot => ?_⟩
  cases act with
  | callShutdown => exact hinv.second_shutdown hpos hs hnot
  | destroy => exact ⟨[], t, rfl, hinv.never_shutdown hpos hs hnot⟩
  | _ => exact absurd trivial hnot

/-- Two workers, a handle before the call of `shutdown` and one after it. -/
def twoWorkers : List Act :=
  [.callSchedule 5, .go false, .go false, .callShutdown, .go false, .work 0, .work 1, .work 0,
    .work 0, .work 0, .work 0, .go false, .go false, .go false, .callSchedule 6, .go false,
    .destroy]

theorem sound_iff_shutdown_once_two_workers :
    ∃ s, (system 2).ReachableUnder Once s ∧ s.caller = .destroyed ∧ s.Sound 2 := by
  have hm : (system 2).Meets Once initial twoWorkers :=
    ⟨trivial, _, rfl, trivial, _, rfl, trivial, _, rfl, rfl, _, rfl, trivial, _, rfl, trivial,
      _, rfl, trivial, _, rfl, trivial, _, rfl, trivial, _, rfl, trivial, _, rfl, trivial, _, rfl,
      trivial, _, rfl, trivial, _, rfl, trivial, _, rfl, trivial, _, rfl, trivial, _, rfl,
      rfl, _, rfl, trivial⟩
  have h0 : (system 2).ReachableUnder Once initial := .init rfl
  have hs := h0.run hm rfl
  exact ⟨_, hs, rfl, (sound_iff_shutdown_once 2 (by decide) _ hs).1⟩

end Coroutines.ThreadPool.Lifetime
