import Coroutines.TimerService.Reactor

/-!
# The timer service

`applications/timers/win-iocp/timer_service.hpp`. A call of `post` (or the `await_suspend` of
a `post_awaitable`, which takes the same steps) tests the closed flag, counts its request as
in flight and pushes it onto the queue. The worker thread arms a timer for each request it
pops; an armed timer queues an APC to the worker, the APC posts a packet to the completion
port, and a reactor thread dequeues the packet, takes the request off the count and calls the
completion handler. `shutdown` sets the flag and queues an APC that drains the queue and then
sleeps while timers are in flight.

The model interleaves the steps of any number of posts and reactors, of the worker, the
timers and one `shutdown` call. A request is the index of its post. A critical section of the
queue is one step, and the event of the queue stays set once a push has set it. An APC runs only
while the worker is blocked in an alertable wait: for the event, in `SleepEx`, or for the mutex
while a push may have it. The APCs of a thread run in their order. The counts start at zero.

After an APC in a wait for the mutex the worker goes on in the queue without it. From there on the
model shows only what happens if it meets no push inside; `NoApcInLock` excludes that step.
-/

namespace Coroutines.TimerService

open Transition Tally Function

/-! ## The model -/

/-- Where a call of `post` stands. -/
inductive PostPc
  | idle
  | addInflight    -- the flag was clear
  | push           -- counted, in `requests.push` up to `ReleaseMutex`
  | setEvent       -- the request is on the queue; before `SetEvent(non_empty)`
  | accepted       -- returned true; the coroutine of an awaitable is suspended
  | denied
deriving DecidableEq

/-- Where the worker thread stands. -/
inductive WorkerPc
  | pop                  -- in `requests.pop` of `process_requests`, up to its look at the queue
  | wait                 -- in its `SignalObjectAndWait`, for the event
  | arm (r : ℕ)          -- before `SetWaitableTimer`
  | drain                -- `on_shutdown_request`, in `requests.try_pop`
  | drainArm (r : ℕ)
  | loadInflight         -- before the test of `n_inflight_timers`
  | sleep                -- in `SleepEx`
  | exited
deriving DecidableEq

/-- An APC queued to the worker. -/
inductive Apc
  | expired (r : ℕ)      -- `on_timer_expiration`
  | shutdown             -- `on_shutdown_request`
deriving DecidableEq

/-- A packet in the completion port. -/
inductive Packet
  | request (r : ℕ)
  | shutdown             -- with `SHUTDOWN_KEY`
deriving DecidableEq

/-- Where a thread stands in `run`. -/
inductive ReactorPc
  | outside
  | tryEnter (state : BitVec 32)
  | dequeue              -- in `GetQueuedCompletionStatus`
  | dequeued (r : ℕ)     -- before `remove_inflight_timer`
  | handle (r : ℕ)       -- before the completion handler
  | leave
deriving DecidableEq

/-- Where `shutdown` stands. -/
inductive ShutdownPc
  | idle
  | queueApc
  | waitWorker
  | loadReactors
  | postPackets (remaining : ℕ)
  | returned
deriving DecidableEq

structure State where
  /-- `queue::buffer` of the member `requests`, front first. -/
  requests : List ℕ
  /-- `queue::non_empty`, which nothing resets. -/
  nonEmpty : Bool
  nActiveReactors : BitVec 32
  nInflightTimers : BitVec 32
  /-- The timers that are armed and have not expired. -/
  armed : List ℕ
  apcs : List Apc
  packets : List Packet
  posts : List PostPc
  worker : WorkerPc
  reactors : List ReactorPc
  shutdown : ShutdownPc
  /-- History: how often the worker armed the timer of the request, and how often its
  completion handler was called. -/
  arms : ℕ → ℕ
  handled : ℕ → ℕ

/-- What moves next. -/
inductive Act
  | post (r : ℕ)
  | work
  | apc
  | expire (r : ℕ)
  | enter (k : ℕ) (spurious : Bool)
  | react (k : ℕ)
  | shutdown
deriving DecidableEq

def initial (nPosts nReactors : ℕ) : State where
  requests := []
  nonEmpty := false
  nActiveReactors := 0
  nInflightTimers := 0
  armed := []
  apcs := []
  packets := []
  posts := List.replicate nPosts .idle
  worker := .pop
  reactors := List.replicate nReactors .outside
  shutdown := .idle
  arms := fun _ => 0
  handled := fun _ => 0

def State.goPost (s : State) (r : ℕ) (pc : PostPc) : State :=
  { s with posts := s.posts.set r pc }

def State.goReactor (s : State) (k : ℕ) (pc : ReactorPc) : State :=
  { s with reactors := s.reactors.set k pc }

/-- `SetWaitableTimer`, and the worker goes on. -/
def State.arm (s : State) (r : ℕ) (pc : WorkerPc) : State :=
  { s with
    armed := s.armed ++ [r]
    arms := update s.arms r (s.arms r + 1)
    worker := pc }

/-- One step of `timer_service::post`. -/
def postStep (s : State) (r : ℕ) : Option State :=
  match s.posts[r]? with
  | some .idle =>
      some (s.goPost r (if closed s.nActiveReactors then .denied else .addInflight))
  | some .addInflight =>
      some ({ s with nInflightTimers := s.nInflightTimers + 1 }.goPost r .push)
  | some .push => some ({ s with requests := s.requests ++ [r] }.goPost r .setEvent)
  | some .setEvent => some ({ s with nonEmpty := true }.goPost r .accepted)
  | _ => none

/-- One step of `process_requests`, or of `on_shutdown_request` once its APC runs. -/
def workStep (s : State) : Option State :=
  match s.worker with
  | .pop =>
      match s.requests with
      | [] => some { s with worker := .wait }
      | r :: rest => some { s with requests := rest, worker := .arm r }
  | .wait => if s.nonEmpty then some { s with worker := .pop } else none
  | .arm r => some (s.arm r .pop)
  | .drain =>
      match s.requests with
      | [] => some { s with worker := .loadInflight }
      | r :: rest => some { s with requests := rest, worker := .drainArm r }
  | .drainArm r => some (s.arm r .drain)
  | .loadInflight =>
      some { s with worker := if 0 < s.nInflightTimers then .sleep else .exited }
  | .sleep => none
  | .exited => none

/-- The worker is blocked in an alertable wait. -/
def State.alertable (s : State) : Bool :=
  match s.worker with
  | .pop | .drain => decide (.push ∈ s.posts)   -- a push may have the mutex
  | .wait => !s.nonEmpty
  | .sleep => true
  | _ => false

/-- Where the worker goes on when an APC has ended its wait. The results of the waits are not
looked at: one for the mutex goes on without it. -/
def WorkerPc.afterApc : WorkerPc → WorkerPc
  | .wait => .pop
  | .sleep => .loadInflight
  | pc => pc

/-- The oldest APC runs, and the wait returns. `on_shutdown_request` does not return. -/
def apcStep (s : State) : Option State :=
  if s.alertable then
    match s.apcs with
    | [] => none
    | .expired r :: rest => some { s with
        apcs := rest
        packets := s.packets ++ [.request r]
        worker := s.worker.afterApc }
    | .shutdown :: rest => some { s with apcs := rest, worker := .drain }
  else none

/-- The timer of the request expires while the thread that armed it is there. -/
def expireStep (s : State) (r : ℕ) : Option State :=
  if r ∈ s.armed ∧ s.worker ≠ .exited then
    some { s with armed := s.armed.erase r, apcs := s.apcs ++ [.expired r] }
  else none

/-- One step of a thread that calls `run`, up to the reactor loop. -/
def enterStep (s : State) (k : ℕ) (spurious : Bool) : Option State :=
  match s.reactors[k]? with
  | some .outside => some (s.goReactor k (.tryEnter s.nActiveReactors))
  | some (.tryEnter state) =>
      if closed state then some (s.goReactor k .outside)
      else if s.nActiveReactors = state ∧ spurious = false then
        some ({ s with nActiveReactors := state + newReactorIncrement }.goReactor k
          (.tryEnter state))
      else some (s.goReactor k .dequeue)
  | _ => none

/-- One step of the reactor loop, or of `leave_reactor` behind it. -/
def reactStep (s : State) (k : ℕ) : Option State :=
  match s.reactors[k]? with
  | some .dequeue =>
      match s.packets with
      | [] => none
      | .request r :: rest => some ({ s with packets := rest }.goReactor k (.dequeued r))
      | .shutdown :: rest => some ({ s with packets := rest }.goReactor k .leave)
  | some (.dequeued r) =>
      some ({ s with nInflightTimers := s.nInflightTimers - 1 }.goReactor k (.handle r))
  | some (.handle r) =>
      some ({ s with handled := update s.handled r (s.handled r + 1) }.goReactor k .dequeue)
  | some .leave =>
      some ({ s with nActiveReactors := s.nActiveReactors - newReactorIncrement }.goReactor k
        .outside)
  | _ => none

def shutdownStep (s : State) : Option State :=
  match s.shutdown with
  | .idle => some { s with
      nActiveReactors := s.nActiveReactors ||| closedFlag
      shutdown := if closed s.nActiveReactors then .returned else .queueApc }
  | .queueApc => some { s with apcs := s.apcs ++ [.shutdown], shutdown := .waitWorker }
  | .waitWorker =>
      if s.worker = .exited then some { s with shutdown := .loadReactors } else none
  | .loadReactors => some { s with shutdown := .postPackets s.nActiveReactors.toNat }
  | .postPackets 0 => some { s with shutdown := .returned }
  | .postPackets (n + 1) => some { s with
      packets := s.packets ++ [.shutdown]
      shutdown := .postPackets n }
  | .returned => none

def step (s : State) : Act → Option State
  | .post r => postStep s r
  | .work => workStep s
  | .apc => apcStep s
  | .expire r => expireStep s r
  | .enter k spurious => enterStep s k spurious
  | .react k => reactStep s k
  | .shutdown => shutdownStep s

def system : System State Act where
  Init s := ∃ nPosts nReactors, s = initial nPosts nReactors
  step := step

/-- No timer's APC runs while the worker waits for the mutex of the queue. -/
def NoApcInLock (s : State) : Act → Prop
  | .apc => ∀ r rest, s.apcs = .expired r :: rest → s.worker ≠ .pop ∧ s.worker ≠ .drain
  | _ => True

/-! ## What each step can be

What a step keeps is proved from these cases. -/

inductive PostCase (s : State) (r : ℕ) : State → Prop
  | test (hr : s.posts[r]? = some .idle) :
      PostCase s r (s.goPost r (if closed s.nActiveReactors then .denied else .addInflight))
  | addInflight (hr : s.posts[r]? = some .addInflight) :
      PostCase s r ({ s with nInflightTimers := s.nInflightTimers + 1 }.goPost r .push)
  | push (hr : s.posts[r]? = some .push) :
      PostCase s r ({ s with requests := s.requests ++ [r] }.goPost r .setEvent)
  | setEvent (hr : s.posts[r]? = some .setEvent) :
      PostCase s r ({ s with nonEmpty := true }.goPost r .accepted)

theorem postStep_case {s s' : State} {r : ℕ} (hs : postStep s r = some s') : PostCase s r s' := by
  unfold postStep at hs
  split at hs
  · rename_i hr
    cases hs
    exact .test hr
  · rename_i hr
    cases hs
    exact .addInflight hr
  · rename_i hr
    cases hs
    exact .push hr
  · rename_i hr
    cases hs
    exact .setEvent hr
  · cases hs

inductive WorkCase (s : State) : State → Prop
  | pop {r : ℕ} {rest : List ℕ} (hpc : s.worker = .pop) (hreq : s.requests = r :: rest) :
      WorkCase s { s with requests := rest, worker := .arm r }
  | empty (hpc : s.worker = .pop) (hreq : s.requests = []) : WorkCase s { s with worker := .wait }
  | woken (hpc : s.worker = .wait) (hset : s.nonEmpty = true) :
      WorkCase s { s with worker := .pop }
  | arm {r : ℕ} (hpc : s.worker = .arm r) : WorkCase s (s.arm r .pop)
  | drained (hpc : s.worker = .drain) (hreq : s.requests = []) :
      WorkCase s { s with worker := .loadInflight }
  | drain {r : ℕ} {rest : List ℕ} (hpc : s.worker = .drain) (hreq : s.requests = r :: rest) :
      WorkCase s { s with requests := rest, worker := .drainArm r }
  | drainArm {r : ℕ} (hpc : s.worker = .drainArm r) : WorkCase s (s.arm r .drain)
  | sleep (hpc : s.worker = .loadInflight) (hpos : 0 < s.nInflightTimers) :
      WorkCase s { s with worker := .sleep }
  | exit (hpc : s.worker = .loadInflight) (hzero : s.nInflightTimers = 0) :
      WorkCase s { s with worker := .exited }

theorem workStep_case {s s' : State} (hs : workStep s = some s') : WorkCase s s' := by
  unfold workStep at hs
  split at hs
  · rename_i hpc
    split at hs
    · rename_i hreq
      cases hs
      exact .empty hpc hreq
    · rename_i r rest hreq
      cases hs
      exact .pop hpc hreq
  · rename_i hpc
    obtain ⟨hset, heq⟩ := Option.ite_none_right_eq_some.mp hs
    cases heq
    exact .woken hpc hset
  · rename_i r hpc
    cases hs
    exact .arm hpc
  · rename_i hpc
    split at hs
    · rename_i hreq
      cases hs
      exact .drained hpc hreq
    · rename_i r rest hreq
      cases hs
      exact .drain hpc hreq
  · rename_i r hpc
    cases hs
    exact .drainArm hpc
  · rename_i hpc
    by_cases hpos : 0 < s.nInflightTimers
    · rw [if_pos hpos] at hs
      cases hs
      exact .sleep hpc hpos
    · rw [if_neg hpos] at hs
      cases hs
      exact .exit hpc (BitVec.eq_of_toNat_eq (Nat.eq_zero_of_not_pos hpos))
  · cases hs
  · cases hs

inductive ApcCase (s : State) : State → Prop
  | expired {r : ℕ} {rest : List Apc} (halert : s.alertable = true)
      (hapcs : s.apcs = .expired r :: rest) :
      ApcCase s { s with
        apcs := rest
        packets := s.packets ++ [.request r]
        worker := s.worker.afterApc }
  | shutdown {rest : List Apc} (halert : s.alertable = true)
      (hapcs : s.apcs = .shutdown :: rest) :
      ApcCase s { s with apcs := rest, worker := .drain }

theorem apcStep_case {s s' : State} (hs : apcStep s = some s') : ApcCase s s' := by
  unfold apcStep at hs
  split at hs
  · rename_i halert
    split at hs
    · cases hs
    · rename_i r rest hapcs
      cases hs
      exact .expired halert hapcs
    · rename_i rest hapcs
      cases hs
      exact .shutdown halert hapcs
  · cases hs

theorem expireStep_eq {s s' : State} {r : ℕ} (hs : expireStep s r = some s') :
    (r ∈ s.armed ∧ s.worker ≠ .exited) ∧
      s' = { s with armed := s.armed.erase r, apcs := s.apcs ++ [.expired r] } := by
  unfold expireStep at hs
  split at hs
  · rename_i hexp
    exact ⟨hexp, (Option.some.inj hs).symm⟩
  · cases hs

inductive EnterCase (s : State) (k : ℕ) : State → Prop
  | load (hk : s.reactors[k]? = some .outside) :
      EnterCase s k (s.goReactor k (.tryEnter s.nActiveReactors))
  | refused {state : BitVec 32} (hk : s.reactors[k]? = some (.tryEnter state))
      (hclosed : closed state) :
      EnterCase s k (s.goReactor k .outside)
  | increment {state : BitVec 32} (hk : s.reactors[k]? = some (.tryEnter state))
      (hopen : ¬ closed state) (hcas : s.nActiveReactors = state) :
      EnterCase s k ({ s with nActiveReactors := state + newReactorIncrement }.goReactor k
        (.tryEnter state))
  | enter {state : BitVec 32} (hk : s.reactors[k]? = some (.tryEnter state))
      (hopen : ¬ closed state) :
      EnterCase s k (s.goReactor k .dequeue)

theorem enterStep_case {s s' : State} {k : ℕ} {spurious : Bool}
    (hs : enterStep s k spurious = some s') : EnterCase s k s' := by
  unfold enterStep at hs
  split at hs
  · rename_i hk
    cases hs
    exact .load hk
  · rename_i state hk
    split at hs
    · rename_i hclosed
      cases hs
      exact .refused hk hclosed
    · rename_i hopen
      split at hs
      · rename_i hcas
        cases hs
        exact .increment hk hopen hcas.1
      · cases hs
        exact .enter hk hopen
  · cases hs

inductive ReactCase (s : State) (k : ℕ) : State → Prop
  | dequeue {p : Packet} {rest : List Packet} {pc : ReactorPc}
      (hk : s.reactors[k]? = some .dequeue) (hpackets : s.packets = p :: rest)
      (hpc : p = .shutdown ∧ pc = .leave ∨ ∃ r, p = .request r ∧ pc = .dequeued r) :
      ReactCase s k ({ s with packets := rest }.goReactor k pc)
  | removeInflight {r : ℕ} (hk : s.reactors[k]? = some (.dequeued r)) :
      ReactCase s k
        ({ s with nInflightTimers := s.nInflightTimers - 1 }.goReactor k (.handle r))
  | handle {r : ℕ} (hk : s.reactors[k]? = some (.handle r)) :
      ReactCase s k
        ({ s with handled := update s.handled r (s.handled r + 1) }.goReactor k .dequeue)
  | leave (hk : s.reactors[k]? = some .leave) :
      ReactCase s k
        ({ s with nActiveReactors := s.nActiveReactors - newReactorIncrement }.goReactor k .outside)

theorem reactStep_case {s s' : State} {k : ℕ} (hs : reactStep s k = some s') :
    ReactCase s k s' := by
  unfold reactStep at hs
  split at hs
  · rename_i hk
    split at hs
    · cases hs
    · rename_i r rest hpackets
      cases hs
      exact .dequeue hk hpackets (Or.inr ⟨r, rfl, rfl⟩)
    · rename_i rest hpackets
      cases hs
      exact .dequeue hk hpackets (Or.inl ⟨rfl, rfl⟩)
  · rename_i r hk
    cases hs
    exact .removeInflight hk
  · rename_i r hk
    cases hs
    exact .handle hk
  · rename_i hk
    cases hs
    exact .leave hk
  · cases hs

inductive ShutdownCase (s : State) : State → Prop
  | setFlag (hpc : s.shutdown = .idle) :
      ShutdownCase s { s with
        nActiveReactors := s.nActiveReactors ||| closedFlag
        shutdown := if closed s.nActiveReactors then .returned else .queueApc }
  | queueApc (hpc : s.shutdown = .queueApc) :
      ShutdownCase s { s with apcs := s.apcs ++ [.shutdown], shutdown := .waitWorker }
  | waitWorker (hpc : s.shutdown = .waitWorker) (hexited : s.worker = .exited) :
      ShutdownCase s { s with shutdown := .loadReactors }
  | loadReactors (hpc : s.shutdown = .loadReactors) :
      ShutdownCase s { s with shutdown := .postPackets s.nActiveReactors.toNat }
  | post {n : ℕ} (hpc : s.shutdown = .postPackets (n + 1)) :
      ShutdownCase s { s with
        packets := s.packets ++ [.shutdown]
        shutdown := .postPackets n }
  | finish (hpc : s.shutdown = .postPackets 0) :
      ShutdownCase s { s with shutdown := .returned }

theorem shutdownStep_case {s s' : State} (hs : shutdownStep s = some s') : ShutdownCase s s' := by
  unfold shutdownStep at hs
  split at hs
  · rename_i hpc
    cases hs
    exact .setFlag hpc
  · rename_i hpc
    cases hs
    exact .queueApc hpc
  · rename_i hpc
    split at hs
    · rename_i hexited
      cases hs
      exact .waitWorker hpc hexited
    · cases hs
  · rename_i hpc
    cases hs
    exact .loadReactors hpc
  · rename_i hpc
    cases hs
    exact .finish hpc
  · rename_i n hpc
    cases hs
    exact .post hpc
  · cases hs

end Coroutines.TimerService
