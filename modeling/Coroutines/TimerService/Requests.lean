import Coroutines.TimerService.Service
import Coroutines.TimerService.Filetime

/-!
# Requests and timer objects

`applications/timers/win-iocp/timer_request.hpp`, and the timer objects of the system. A post
makes its request with a timer object of its own, or with one that the caller hands in
(`post_with_handle`, `post_awaitable_with_handle`). The reactor that calls the completion
handler deletes the request, which closes a timer object of its own. A timer object carries one
setting: to set it again or to destroy it cancels the one before, and the APC of that one if it
has not run.

The steps of the service are those of `TimerService`, up to what a timer object forgets.
-/

namespace Coroutines.TimerService.Requests

open Transition Tally Function

/-! ## The model -/

/-- `timer_request`. The port is that of the service, and the handler goes by the request. -/
structure TimerRequest where
  timeout : Filetime
  timerObject : ℕ
  ownedTimer : Bool

/-- Who closes a handle. -/
inductive Holder
  | caller
  | request (r : ℕ)
deriving DecidableEq

/-- What a request was made with, and when. -/
structure Record where
  time : ℤ
  timeout : Duration
  timerObject : ℕ
  ownedTimer : Bool

def Record.request (x : Record) : TimerRequest where
  timeout := timeoutToFiletime x.timeout
  timerObject := x.timerObject
  ownedTimer := x.ownedTimer

/-- The request has made a timer object; zero is `NULL`. -/
def Record.owns (x : Record) : Bool := x.ownedTimer && x.timerObject != 0

structure State where
  service : TimerService.State
  /-- The request of a post, while it lives. -/
  request : ℕ → Option TimerRequest
  /-- The handles that are open. -/
  handles : ℕ → Option Holder
  /-- In steps of 100 ns, as in a file time. -/
  now : ℤ
  /-- When the timer is due that was set for a request. -/
  due : ℕ → ℤ
  /-- A request was used that is not there. -/
  fault : Bool
  /-- History: the requests that were made, how often each has closed its timer object, and the
  requests whose setting was cancelled or refused. -/
  made : ℕ → Option Record
  closes : ℕ → ℕ
  lost : List ℕ

inductive Act
  /-- `make_unique<timer_request>` in a post, before the push. -/
  | make (r : ℕ) (timeout : Duration) (timer : ℕ) (owned : Bool)
  | service (act : TimerService.Act)
  | tick (steps : ℕ)
  /-- A caller makes a timer object, or closes one that it made. -/
  | create (timer : ℕ)
  | close (timer : ℕ)

def initial (nPosts nReactors : ℕ) (now : ℤ) : State where
  service := TimerService.initial nPosts nReactors
  request := fun _ => none
  handles := fun _ => none
  now := now
  due := fun _ => 0
  fault := false
  made := fun _ => none
  closes := fun _ => 0
  lost := []

/-- The constructors of `timer_request`. -/
def State.make (s : State) (r : ℕ) (x : Record) : State :=
  { s with
    request := update s.request r (some x.request)
    handles :=
      if x.owns then update s.handles x.timerObject (some (.request r)) else s.handles
    made := update s.made r (some x) }

def State.uses (s : State) (timer r : ℕ) : Bool :=
  (s.request r).any fun request => request.timerObject == timer

/-- The request that an APC is about. -/
def expired : Apc → Option ℕ
  | .expired r => some r
  | .shutdown => none

/-- What is set on a timer object is forgotten. -/
def State.cancel (s : State) (timer : ℕ) : State :=
  { s with
    service := { s.service with
      armed := s.service.armed.filter fun r => !s.uses timer r
      apcs := s.service.apcs.filter fun apc => !(expired apc).any (s.uses timer) }
    lost := s.lost ++ (s.service.armed ++ s.service.apcs.filterMap expired).filter (s.uses timer) }

/-- `SetWaitableTimer`, whose result is not read, and the worker goes on. -/
def State.setWaitableTimer (s : State) (r : ℕ) (pc : WorkerPc) : State :=
  match s.request r with
  | none => { s with fault := true }
  | some request =>
      if (s.handles request.timerObject).isSome then
        let s := s.cancel request.timerObject
        { s with
          service := s.service.arm r pc
          due := update s.due r (request.timeout.due s.now) }
      else
        { s with
          service := { s.service with
            arms := update s.service.arms r (s.service.arms r + 1)
            worker := pc }
          lost := s.lost ++ [r] }

/-- `CloseHandle`: the timer object goes. -/
def State.closeHandle (s : State) (timer : ℕ) : State :=
  { s.cancel timer with handles := update s.handles timer none }

/-- `~timer_request`. -/
def State.destroyRequest (s : State) (r : ℕ) : State :=
  match s.request r with
  | none => { s with fault := true }
  | some request =>
      let s :=
        if request.ownedTimer && (s.handles request.timerObject).isSome then
          { s.closeHandle request.timerObject with
            closes := update s.closes r (s.closes r + 1) }
        else s
      { s with request := update s.request r none }

/-- The worker is about to arm the request, and where it goes on. -/
def arming : WorkerPc → Option (ℕ × WorkerPc)
  | .arm r => some (r, .pop)
  | .drainArm r => some (r, .drain)
  | _ => none

/-- The reactor is about to call the completion handler. -/
def handling : Option ReactorPc → Option ℕ
  | some (.handle r) => some r
  | _ => none

def serviceStep (s : State) : TimerService.Act → Option State
  | .post r =>
      if s.service.posts[r]? = some .push ∧ (s.request r).isNone then none
      else (postStep s.service r).map fun t => { s with service := t }
  | .work =>
      match arming s.service.worker with
      | some (r, pc) => some (s.setWaitableTimer r pc)
      | none => (workStep s.service).map fun t => { s with service := t }
  | .apc =>
      -- `on_timer_expiration` reads the port from the request
      let dangling := ((s.service.apcs.head?).bind expired).any fun r => (s.request r).isNone
      (apcStep s.service).map fun t => { s with service := t, fault := s.fault || dangling }
  | .expire r =>
      if s.due r ≤ s.now then (expireStep s.service r).map fun t => { s with service := t }
      else none
  | .react k => (reactStep s.service k).map fun t =>
      match handling s.service.reactors[k]? with
      | some r => { s with service := t }.destroyRequest r
      | none => { s with service := t }
  | act => (TimerService.step s.service act).map fun t => { s with service := t }

def step (s : State) : Act → Option State
  | .make r timeout timer owned =>
      if s.service.posts[r]? = some .push ∧ (s.made r).isNone ∧
          (owned = true → s.handles timer = none) then
        some (s.make r
          { time := s.now, timeout := timeout, timerObject := timer, ownedTimer := owned })
      else none
  | .service act => serviceStep s act
  | .tick steps => some { s with now := s.now + steps }
  | .create timer =>
      if timer ≠ 0 ∧ s.handles timer = none then
        some { s with handles := update s.handles timer (some .caller) }
      else none
  | .close timer => if s.handles timer = some .caller then some (s.closeHandle timer) else none

def system : System State Act where
  Init s := ∃ nPosts nReactors now, s = initial nPosts nReactors now
  step := step

/-- The conversion of a timeout does not overflow, and no timer's APC runs in a wait for the mutex
of the queue. -/
def Proper (s : State) : Act → Prop
  | .make _ timeout _ _ => timeout.Fits
  | .service act => NoApcInLock s.service act
  | _ => True

/-! ## What each step can be -/

inductive ServiceCase (s : State) : State → Prop
  | post {r : ℕ} {t : TimerService.State}
      (hmade : s.service.posts[r]? = some .push → (s.request r).isSome)
      (ht : postStep s.service r = some t) : ServiceCase s { s with service := t }
  | arm {r : ℕ} {pc : WorkerPc} (hw : arming s.service.worker = some (r, pc)) :
      ServiceCase s (s.setWaitableTimer r pc)
  | work {t : TimerService.State} (hw : arming s.service.worker = none)
      (ht : workStep s.service = some t) : ServiceCase s { s with service := t }
  | apc {t : TimerService.State} (ht : apcStep s.service = some t) :
      ServiceCase s { s with
        service := t
        fault := s.fault ||
          ((s.service.apcs.head?).bind expired).any fun r => (s.request r).isNone }
  | expire {r : ℕ} {t : TimerService.State} (hdue : s.due r ≤ s.now)
      (ht : expireStep s.service r = some t) : ServiceCase s { s with service := t }
  | handle {k r : ℕ} {t : TimerService.State} (hk : s.service.reactors[k]? = some (.handle r))
      (ht : reactStep s.service k = some t) :
      ServiceCase s (State.destroyRequest { s with service := t } r)
  | react {k : ℕ} {t : TimerService.State} (hk : handling s.service.reactors[k]? = none)
      (ht : reactStep s.service k = some t) : ServiceCase s { s with service := t }
  | enter {k : ℕ} {spurious : Bool} {t : TimerService.State}
      (ht : enterStep s.service k spurious = some t) : ServiceCase s { s with service := t }
  | shutdown {t : TimerService.State} (ht : shutdownStep s.service = some t) :
      ServiceCase s { s with service := t }

theorem handling_eq_some {pc : Option ReactorPc} {r : ℕ} (h : handling pc = some r) :
    pc = some (.handle r) := by
  unfold handling at h
  split at h
  · rw [Option.some.inj h]
  · cases h

theorem serviceStep_case {s s' : State} {act : TimerService.Act}
    (hs : serviceStep s act = some s') : ServiceCase s s' := by
  cases act with
  | post r =>
      obtain ⟨hmade, hrest⟩ := Option.ite_none_left_eq_some.mp hs
      obtain ⟨t, ht, rfl⟩ := Option.map_eq_some_iff.mp hrest
      refine .post (fun hpush => ?_) ht
      exact by
        by_contra hnone
        exact hmade ⟨hpush, Option.not_isSome_iff_eq_none.mp hnone ▸ rfl⟩
  | work =>
      simp only [serviceStep] at hs
      split at hs
      · rename_i r pc hw
        rw [← Option.some.inj hs]
        exact .arm hw
      · rename_i hw
        obtain ⟨t, ht, rfl⟩ := Option.map_eq_some_iff.mp hs
        exact .work hw ht
  | apc =>
      obtain ⟨t, ht, rfl⟩ := Option.map_eq_some_iff.mp hs
      exact .apc ht
  | expire r =>
      obtain ⟨hdue, hrest⟩ := Option.ite_none_right_eq_some.mp hs
      obtain ⟨t, ht, rfl⟩ := Option.map_eq_some_iff.mp hrest
      exact .expire hdue ht
  | enter k spurious =>
      obtain ⟨t, ht, rfl⟩ := Option.map_eq_some_iff.mp hs
      exact .enter ht
  | react k =>
      obtain ⟨t, ht, rfl⟩ := Option.map_eq_some_iff.mp hs
      cases hk : handling s.service.reactors[k]? with
      | some r => exact .handle (handling_eq_some hk) ht
      | none => exact .react hk ht
  | shutdown =>
      obtain ⟨t, ht, rfl⟩ := Option.map_eq_some_iff.mp hs
      exact .shutdown ht

/-! ## The ledger, with the lost requests

A request that is lost is one whose timer is armed and never expires. -/

def State.whole (s : State) : TimerService.State :=
  { s.service with armed := s.lost ++ s.service.armed }

theorem postStep_whole {s t : TimerService.State} {r : ℕ} (l : List ℕ)
    (hs : postStep s r = some t) :
    postStep { s with armed := l ++ s.armed } r = some { t with armed := l ++ t.armed } := by
  cases postStep_case hs with
  | test hr | addInflight hr | push hr | setEvent hr =>
      unfold postStep
      rw [hr]
      rfl

theorem reactStep_whole {s t : TimerService.State} {k : ℕ} (l : List ℕ)
    (hs : reactStep s k = some t) :
    reactStep { s with armed := l ++ s.armed } k = some { t with armed := l ++ t.armed } := by
  cases reactStep_case hs with
  | removeInflight hk | handle hk | leave hk =>
      unfold reactStep
      rw [hk]
      rfl
  | dequeue hk hpackets hpc =>
      unfold reactStep
      rw [hk]
      rcases hpc with ⟨rfl, rfl⟩ | ⟨r, rfl, rfl⟩ <;>
        simp only [hpackets] <;> rfl

theorem moved_whole {s t : TimerService.State} (l : List ℕ) (h : Moved s t) :
    Moved { s with armed := l ++ s.armed } { t with armed := l ++ t.armed } := by
  refine ⟨fun f => ?_, h.handling, h.armed, h.pushing, h.pushed, h.handled, h.count⟩
  have hsame := h.inflight f
  simp only [State.inflight, State.toArm, weigh_append] at hsame ⊢
  omega

theorem weigh_expired (f : ℕ → ℕ) (p : ℕ → Bool) (l : List Apc) :
    weigh (Apc.weight f) (l.filter fun apc => !(expired apc).any p) +
      weigh f ((l.filterMap expired).filter p) = weigh (Apc.weight f) l := by
  induction l with
  | nil => rfl
  | cons apc l ih =>
      cases apc with
      | shutdown =>
          rw [List.filter_cons_of_pos rfl, List.filterMap_cons_none rfl, weigh_cons, weigh_cons,
            Nat.add_assoc, ih]
      | expired r =>
          have hcons : (Apc.expired r :: l).filterMap expired = r :: l.filterMap expired := rfl
          rw [hcons]
          cases hp : p r with
          | true =>
              rw [List.filter_cons_of_neg (by simp [expired, hp]), List.filter_cons_of_pos hp,
                weigh_cons, weigh_cons, Nat.add_left_comm, ih]
              rfl
          | false =>
              rw [List.filter_cons_of_pos (by simp [expired, hp]),
                List.filter_cons_of_neg (by rw [hp]; decide), weigh_cons, weigh_cons, Nat.add_assoc,
                ih]

theorem cancel_moved (s : State) (timer : ℕ) : Moved s.whole (s.cancel timer).whole := by
  refine ⟨fun f => ?_, fun _ => rfl, fun _ => rfl, rfl, fun _ => rfl, rfl, rfl⟩
  have harmed := weigh_filter (w := f) (l := s.service.armed) (s.uses timer)
  have hapcs := weigh_expired f (s.uses timer) s.service.apcs
  simp only [State.whole, State.cancel, State.inflight, State.toArm, weigh_append,
    List.filter_append] at hapcs ⊢
  omega

theorem arming_eq {s : TimerService.State} {r : ℕ} {pc : WorkerPc}
    (hw : arming s.worker = some (r, pc)) :
    (∀ f, s.worker.arming f = f r) ∧ (∀ f, pc.arming f = 0) ∧ workStep s = some (s.arm r pc) := by
  unfold arming at hw
  split at hw
  · rename_i q hq
    cases hw
    rw [hq]
    refine ⟨fun _ => rfl, fun _ => rfl, ?_⟩
    unfold workStep
    rw [hq]
  · rename_i q hq
    cases hw
    rw [hq]
    refine ⟨fun _ => rfl, fun _ => rfl, ?_⟩
    unfold workStep
    rw [hq]
  · cases hw

theorem setWaitableTimer_ledger {s : State} {r : ℕ} {pc : WorkerPc} (h : Ledger s.whole)
    (hw : arming s.service.worker = some (r, pc)) : Ledger (s.setWaitableTimer r pc).whole := by
  obtain ⟨hheld, hpc, -⟩ := arming_eq hw
  unfold State.setWaitableTimer
  split
  · exact h
  · rename_i request _
    split
    · have hcancel := h.moved (cancel_moved s request.timerObject)
      exact hcancel.moved (moved_whole _ (arm_moved hheld hpc))
    · -- the request goes where the armed ones are
      have harm := h.moved (moved_whole s.lost (arm_moved hheld hpc))
      refine harm.moved ⟨fun f => ?_, fun _ => rfl, fun _ => rfl, rfl, fun _ => rfl, rfl, rfl⟩
      simp only [State.whole, TimerService.State.arm, State.inflight, State.toArm, weigh_append]
      omega

theorem destroyRequest_ledger {s : State} {r : ℕ} (h : Ledger s.whole) :
    Ledger (s.destroyRequest r).whole := by
  unfold State.destroyRequest
  split
  · exact h
  · split
    · exact h.moved (cancel_moved s _)
    · exact h

theorem serviceStep_ledger {s s' : State} {act : TimerService.Act} (h : Ledger s.whole)
    (hs : serviceStep s act = some s') : Ledger s'.whole := by
  cases serviceStep_case hs with
  | post hmade ht => exact postStep_ledger h (postStep_whole s.lost ht)
  | arm hw => exact setWaitableTimer_ledger h hw
  | work hw ht => exact h.moved (moved_whole s.lost (workStep_moved ht))
  | apc ht => exact h.moved (moved_whole s.lost (apcStep_moved ht))
  | expire hdue ht => exact h.moved (moved_whole s.lost (expireStep_moved ht))
  | @handle k r t hk ht =>
      have hreact : Ledger (State.whole { s with service := t }) :=
        reactStep_ledger h (reactStep_whole s.lost ht)
      exact destroyRequest_ledger hreact
  | react hk ht => exact reactStep_ledger h (reactStep_whole s.lost ht)
  | enter ht => exact h.moved (moved_whole s.lost (enterStep_moved ht))
  | shutdown ht => exact h.moved (moved_whole s.lost (shutdownStep_moved ht))

/-! ## Every request lives until its handler is called -/

/-- A request is there from its making to the call of its handler, and so is a timer object of
its own. -/
structure Books (s : State) : Prop where
  ledger : Ledger s.whole
  fault : s.fault = false
  alive : ∀ r, s.request r =
    if s.service.handled r = 0 then (s.made r).map Record.request else none
  posted : ∀ r x, s.made r = some x →
    s.service.posts[r]? = some .push ∨ s.service.pushed r = 1
  pushed : ∀ r, s.service.pushed r = 1 → (s.made r).isSome
  owner : ∀ timer r, s.handles timer = some (.request r) ↔
    ∃ x, s.made r = some x ∧ x.owns = true ∧ x.timerObject = timer ∧ s.service.handled r = 0
  null : s.handles 0 = none
  closes : ∀ r, s.closes r = if (s.made r).any Record.owns then s.service.handled r else 0

theorem initial_books (nPosts nReactors : ℕ) (now : ℤ) : Books (initial nPosts nReactors now) where
  ledger := initial_ledger nPosts nReactors
  fault := rfl
  alive _ := rfl
  posted _ _ hx := by cases hx
  pushed r hr := by
    rw [initial, initial_pushed] at hr
    cases hr
  owner timer r := by
    constructor
    · intro h
      cases h
    · rintro ⟨x, hx, -⟩
      cases hx
  null := rfl
  closes _ := rfl

section
variable {s : State} (h : Books s)
include h

theorem Books.alive_of_pushed {r : ℕ} (hr : s.service.pushed r = 1)
    (hnot : s.service.handled r = 0) : ∃ x, s.made r = some x ∧ s.request r = some x.request := by
  obtain ⟨x, hx⟩ := Option.isSome_iff_exists.mp (h.pushed r hr)
  refine ⟨x, hx, ?_⟩
  rw [h.alive r, if_pos hnot, hx]
  rfl

/-- A request that is in a place is there. -/
theorem Books.alive_of_place {r : ℕ}
    (hplace : 0 < s.whole.inflight (single r) + s.whole.handling (single r)) :
    s.service.handled r = 0 ∧ s.service.pushed r = 1 ∧
      ∃ x, s.made r = some x ∧ s.request r = some x.request := by
  have hsum := h.ledger.place r
  have hle := s.whole.pushed_le r
  have hnot : s.whole.handled r = 0 := by omega
  have hpushed : s.whole.pushed r = 1 := by omega
  exact ⟨hnot, hpushed, h.alive_of_pushed hpushed hnot⟩

theorem Books.alive_of_arming {r : ℕ} {pc : WorkerPc}
    (hw : arming s.service.worker = some (r, pc)) :
    s.service.handled r = 0 ∧ s.service.pushed r = 1 ∧
      ∃ x, s.made r = some x ∧ s.request r = some x.request := by
  apply h.alive_of_place
  have hheld : s.whole.worker.arming (single r) = 1 := by
    rw [(arming_eq (s := s.whole) hw).1, single_self]
  simp only [TimerService.State.inflight, TimerService.State.toArm]
  omega

theorem Books.alive_of_expired {r : ℕ} (hr : Apc.expired r ∈ s.service.apcs) :
    s.service.handled r = 0 ∧ s.service.pushed r = 1 ∧
      ∃ x, s.made r = some x ∧ s.request r = some x.request := by
  apply h.alive_of_place
  have hle := le_weigh (w := Apc.weight (single r)) hr
  have hone : (Apc.expired r).weight (single r) = 1 := single_self r
  have happ : s.whole.apcs = s.service.apcs := rfl
  simp only [TimerService.State.inflight, happ]
  omega

theorem Books.alive_of_armed {r : ℕ} (hr : r ∈ s.lost ∨ r ∈ s.service.armed) :
    s.service.handled r = 0 ∧ s.service.pushed r = 1 ∧
      ∃ x, s.made r = some x ∧ s.request r = some x.request := by
  apply h.alive_of_place
  have hle := le_weigh (w := single r) (List.mem_append.mpr hr)
  rw [single_self] at hle
  have harmed : s.whole.armed = s.lost ++ s.service.armed := rfl
  simp only [TimerService.State.inflight, harmed]
  omega

theorem Books.alive_of_handling {k r : ℕ}
    (hk : s.service.reactors[k]? = some (.handle r)) :
    s.service.handled r = 0 ∧ s.service.pushed r = 1 ∧
      ∃ x, s.made r = some x ∧ s.request r = some x.request := by
  apply h.alive_of_place
  have hle := le_weigh (w := ReactorPc.handling (single r)) (List.mem_of_getElem? hk)
  have hone : (ReactorPc.handle r).handling (single r) = 1 := single_self r
  have hreactors : s.whole.reactors = s.service.reactors := rfl
  simp only [TimerService.State.handling, hreactors]
  omega

/-- The service moves, and calls no handler. -/
theorem Books.move {t : TimerService.State} (hledger : Ledger (State.whole { s with service := t }))
    (hhandled : t.handled = s.service.handled)
    (hposted : ∀ r x, s.made r = some x →
      t.posts[r]? = some .push ∨ t.pushed r = 1)
    (hpushed : ∀ r, t.pushed r = 1 → (s.made r).isSome) :
    Books { s with service := t } where
  ledger := hledger
  fault := h.fault
  alive r := by
    rw [hhandled]
    exact h.alive r
  posted := hposted
  pushed := hpushed
  owner timer r := by
    rw [hhandled]
    exact h.owner timer r
  null := h.null
  closes r := by
    rw [hhandled]
    exact h.closes r

theorem Books.aside {t : TimerService.State}
    (hledger : Ledger (State.whole { s with service := t }))
    (hhandled : t.handled = s.service.handled) (hposts : t.posts = s.service.posts) :
    Books { s with service := t } := by
  apply h.move hledger hhandled
  · intro r x hx
    rw [State.pushed_congr (s := s.service) (by rw [hposts]), hposts]
    exact h.posted r x hx
  · intro r hr
    rw [State.pushed_congr (s := s.service) (by rw [hposts])] at hr
    exact h.pushed r hr

theorem Books.cancel (timer : ℕ) : Books (s.cancel timer) :=
  { h with ledger := h.ledger.moved (cancel_moved s timer) }

end

/-- What is left when the request is deleted, and with it a timer object if it is its own. -/
structure Deleted (s u : State) (r object : ℕ) (owned : Bool) : Prop where
  handled : u.service.handled = s.service.handled
  posts : u.service.posts = s.service.posts
  fault : u.fault = s.fault
  made : u.made = s.made
  request : ∀ q, u.request q = if q = r then none else s.request q
  handles : ∀ timer, u.handles timer =
    if owned = true ∧ timer = object then none else s.handles timer
  closes : ∀ q, u.closes q = if owned = true ∧ q = r then s.closes q + 1 else s.closes q

theorem destroyRequest_deleted {s : State} {r : ℕ} {x : Record} (hr : s.request r = some x.request)
    {owned : Bool} (hown : (x.ownedTimer && (s.handles x.timerObject).isSome) = owned) :
    Deleted s (s.destroyRequest r) r x.timerObject owned := by
  have hcond : (x.request.ownedTimer && (s.handles x.request.timerObject).isSome) = owned := hown
  unfold State.destroyRequest
  rw [hr]
  dsimp only
  rw [hcond]
  cases owned with
  | true =>
      have hsame : ∀ p : Prop, (true = true ∧ p) ↔ p := fun p => and_iff_right rfl
      refine ⟨rfl, rfl, rfl, rfl, fun q => update_apply _ _ _ _, fun timer => ?_, fun q => ?_⟩
      · exact (update_apply _ _ _ _).trans (if_congr (hsame _).symm rfl rfl)
      · apply (update_apply s.closes r (s.closes r + 1) q).trans
        refine if_ctx_congr (hsame _).symm (fun hq => ?_) fun _ => rfl
        rw [(hsame _).mp hq]
  | false =>
      have hnot : ∀ p : Prop, ¬ (false = true ∧ p) := fun p h => Bool.false_ne_true h.1
      exact ⟨rfl, rfl, rfl, rfl, fun q => update_apply _ _ _ _,
        fun timer => (if_neg (hnot _)).symm, fun q => (if_neg (hnot _)).symm⟩

/-- A timer object of its own is there as long as the request. -/
theorem Books.owned_open {s : State} (h : Books s) {r : ℕ} {x : Record} (hx : s.made r = some x)
    (hnot : s.service.handled r = 0) :
    (x.ownedTimer && (s.handles x.timerObject).isSome) = x.owns := by
  cases ho : x.owns with
  | true =>
      have hhandle := (h.owner x.timerObject r).mpr ⟨x, hx, ho, rfl, hnot⟩
      rw [hhandle, Option.isSome_some, Bool.and_true]
      exact (Bool.and_eq_true_iff.mp ho).1
  | false =>
      rcases Bool.and_eq_false_iff.mp ho with hown | hnull
      · rw [hown, Bool.false_and]
      · have hzero : x.timerObject = 0 := by simpa using hnull
        rw [hzero, h.null, Option.isSome_none, Bool.and_false]

theorem reactStep_handle {s t : TimerService.State} {k r : ℕ}
    (hk : s.reactors[k]? = some (.handle r)) (ht : reactStep s k = some t) :
    t.handled = update s.handled r (s.handled r + 1) ∧ t.posts = s.posts := by
  unfold reactStep at ht
  rw [hk] at ht
  rw [← Option.some.inj ht]
  exact ⟨rfl, rfl⟩

/-- The timer object goes with the request that is handled, and no other request has it. -/
theorem Books.owner_handle {s : State} (h : Books s) {r : ℕ} {x : Record} (hx : s.made r = some x)
    (hnot : s.service.handled r = 0) (timer q : ℕ) :
    (if x.owns = true ∧ timer = x.timerObject then none else s.handles timer) =
      some (.request q) ↔
    ∃ y, s.made q = some y ∧ y.owns = true ∧ y.timerObject = timer ∧
      update s.service.handled r (0 + 1) q = 0 := by
  by_cases hown : x.owns = true ∧ timer = x.timerObject
  · rw [if_pos hown]
    apply iff_of_false (Option.some_ne_none _).symm
    rintro ⟨y, hy, ho, hobject, hzero⟩
    by_cases hq : q = r
    · rw [hq, update_self] at hzero
      cases hzero
    · rw [update_of_ne hq] at hzero
      have hother := (h.owner timer q).mpr ⟨y, hy, ho, hobject, hzero⟩
      have hself := (h.owner timer r).mpr ⟨x, hx, hown.1, hown.2.symm, hnot⟩
      rw [hother] at hself
      cases hself
      exact hq rfl
  · rw [if_neg hown]
    refine (h.owner timer q).trans (exists_congr fun y => and_congr_right fun hy =>
      and_congr_right fun ho => and_congr_right fun hobject => ?_)
    by_cases hq : q = r
    · subst hq
      obtain rfl : x = y := Option.some.inj (hx.symm.trans hy)
      exact absurd ⟨ho, hobject.symm⟩ hown
    · rw [update_of_ne hq]

theorem Books.handle {s : State} (h : Books s) {k r : ℕ} {t : TimerService.State}
    (hk : s.service.reactors[k]? = some (.handle r)) (ht : reactStep s.service k = some t) :
    Books (State.destroyRequest { s with service := t } r) := by
  obtain ⟨hnot, -, x, hx, hr⟩ := h.alive_of_handling hk
  have hreact : Ledger (State.whole { s with service := t }) :=
    reactStep_ledger h.ledger (reactStep_whole s.lost ht)
  have hd := destroyRequest_deleted (s := { s with service := t }) hr (h.owned_open hx hnot)
  obtain ⟨hthandled, htposts⟩ := reactStep_handle hk ht
  rw [hnot] at hthandled
  have hhandled := hd.handled.trans hthandled
  have hposts := hd.posts.trans htposts
  refine ⟨destroyRequest_ledger hreact, hd.fault.trans h.fault, fun q => ?_, fun q y => ?_,
    fun q => ?_, fun timer q => ?_, ?_, fun q => ?_⟩
  · rw [hd.request, hhandled, hd.made]
    by_cases hq : q = r
    · rw [if_pos hq, hq, update_self]
      rfl
    · rw [if_neg hq, update_of_ne hq]
      exact h.alive q
  · rw [hd.made, State.pushed_congr (s := s.service) (by rw [hposts]), hposts]
    exact h.posted q y
  · rw [hd.made, State.pushed_congr (s := s.service) (by rw [hposts])]
    exact h.pushed q
  · rw [hd.handles, hhandled, hd.made]
    exact h.owner_handle hx hnot timer q
  · rw [hd.handles]
    split
    · rfl
    · exact h.null
  · have hcloses := h.closes q
    rw [hd.closes, hhandled, hd.made]
    by_cases hq : q = r
    · subst hq
      rw [hx, Option.any_some, hnot, ite_self] at hcloses
      rw [hx, Option.any_some, update_self, hcloses]
      exact if_congr (and_iff_left rfl) rfl rfl
    · rw [update_of_ne hq, if_neg fun hand => hq hand.2]
      exact hcloses

theorem Books.post {s : State} (h : Books s) {r : ℕ} {t : TimerService.State}
    (hmade : s.service.posts[r]? = some .push → (s.request r).isSome)
    (ht : postStep s.service r = some t) : Books { s with service := t } := by
  have hledger : Ledger (State.whole { s with service := t }) :=
    postStep_ledger h.ledger (postStep_whole s.lost ht)
  -- only the post that moves can change what is known of it
  have hone : ∀ {old pc : PostPc}, s.service.posts[r]? = some old →
      t.posts = s.service.posts.set r pc → t.handled = s.service.handled →
      (pc = .push ∨ pc.pushed = 1 ∨ old ≠ .push ∧ old.pushed = 0) →
      (pc.pushed = 1 → (s.made r).isSome) → Books { s with service := t } := by
    intro old pc hr hposts hhandled hstay hnew
    have hself : t.posts[r]? = some pc := by
      rw [hposts, List.getElem?_set_self (List.getElem?_eq_some_iff.mp hr).1]
    have hother : ∀ {q}, q ≠ r → t.posts[q]? = s.service.posts[q]? := by
      intro q hq
      rw [hposts, List.getElem?_set_ne (Ne.symm hq)]
    apply h.move hledger hhandled
    · intro q x hx
      by_cases hq : q = r
      · subst hq
        rw [hself, State.pushed_eq hself]
        rcases hstay with rfl | hpushed | ⟨hpush, hold⟩
        · exact .inl rfl
        · exact .inr hpushed
        · rcases h.posted q x hx with hpc | hpc
          · exact absurd (Option.some.inj (hr.symm.trans hpc)) hpush
          · rw [State.pushed_eq hr, hold] at hpc
            cases hpc
      · rw [hother hq, State.pushed_congr (hother hq)]
        exact h.posted q x hx
    · intro q hq'
      by_cases hq : q = r
      · subst hq
        rw [State.pushed_eq hself] at hq'
        exact hnew hq'
      · rw [State.pushed_congr (hother hq)] at hq'
        exact h.pushed q hq'
  cases postStep_case ht with
  | test hr =>
      refine hone hr rfl rfl (.inr (.inr ⟨by decide, rfl⟩)) fun hpc => ?_
      split at hpc <;> cases hpc
  | addInflight hr => exact hone hr rfl rfl (.inl rfl) nofun
  | push hr =>
      refine hone hr rfl rfl (.inr (.inl rfl)) fun _ => ?_
      have halive := hmade hr
      rw [h.alive r] at halive
      split at halive
      · rwa [Option.isSome_map] at halive
      · cases halive
  | setEvent hr =>
      exact hone hr rfl rfl (.inr (.inl rfl)) fun _ => h.pushed r (State.pushed_eq hr)

theorem Books.setWaitableTimer {s : State} (h : Books s) {r : ℕ} {pc : WorkerPc}
    (hw : arming s.service.worker = some (r, pc)) : Books (s.setWaitableTimer r pc) := by
  have hledger := setWaitableTimer_ledger h.ledger hw
  obtain ⟨-, -, x, -, hr⟩ := h.alive_of_arming hw
  unfold State.setWaitableTimer at hledger ⊢
  rw [hr] at hledger ⊢
  dsimp only at hledger ⊢
  split at hledger
  · rename_i hopen
    rw [if_pos hopen]
    exact { h with ledger := hledger }
  · rename_i hopen
    rw [if_neg hopen]
    exact { h with ledger := hledger }

theorem made_make {s : State} {r q : ℕ} {x y : Record} :
    (s.make r x).made q = some y ↔ q = r ∧ x = y ∨ q ≠ r ∧ s.made q = some y := by
  show update s.made r (some x) q = some y ↔ _
  by_cases hq : q = r
  · simp [hq]
  · simp [hq]

theorem handles_make {s : State} {r timer : ℕ} {x : Record} :
    (s.make r x).handles timer =
      if x.owns = true ∧ timer = x.timerObject then some (.request r) else s.handles timer := by
  by_cases ho : x.owns = true
  · rw [if_congr (and_iff_right ho) rfl rfl]
    exact (congrFun (if_pos ho) timer).trans (update_apply _ _ _ _)
  · rw [if_neg fun hand => ho hand.1]
    exact congrFun (if_neg ho) timer

/-- The timer object of the request that is made was free. -/
theorem Books.owner_make {s : State} (h : Books s) {r : ℕ} {x : Record} (hfresh : s.made r = none)
    (hnot : s.service.handled r = 0) (hfree : x.ownedTimer = true → s.handles x.timerObject = none)
    (timer q : ℕ) : (s.make r x).handles timer = some (.request q) ↔
      ∃ y, (s.make r x).made q = some y ∧ y.owns = true ∧ y.timerObject = timer ∧
        s.service.handled q = 0 := by
  have hold := h.owner timer q
  rw [handles_make]
  simp only [made_make]
  by_cases hq : q = r
  · subst hq
    constructor
    · intro hopen
      split at hopen
      · rename_i hown
        exact ⟨x, .inl ⟨rfl, rfl⟩, hown.1, hown.2.symm, hnot⟩
      · obtain ⟨y, hy, -⟩ := hold.mp hopen
        rw [hfresh] at hy
        cases hy
    · rintro ⟨y, ⟨-, rfl⟩ | ⟨hne, -⟩, ho, hobject, -⟩
      · exact if_pos ⟨ho, hobject.symm⟩
      · exact absurd rfl hne
  · have hother : (∃ y, (q = r ∧ x = y ∨ q ≠ r ∧ s.made q = some y) ∧ y.owns = true ∧
        y.timerObject = timer ∧ s.service.handled q = 0) ↔ s.handles timer = some (.request q) := by
      rw [hold]
      simp [hq]
    rw [hother]
    split
    · rename_i hown
      have hfreed := hfree (Bool.and_eq_true_iff.mp hown.1).1
      rw [hown.2, hfreed]
      refine iff_of_false (fun hsame => hq ?_) (Option.some_ne_none _).symm
      cases hsame
      rfl
    · exact Iff.rfl

theorem Books.make {s : State} (h : Books s) {r : ℕ} {x : Record}
    (hpost : s.service.posts[r]? = some .push) (hfresh : s.made r = none)
    (hfree : x.ownedTimer = true → s.handles x.timerObject = none) : Books (s.make r x) := by
  have hnot : s.service.handled r = 0 := by
    have hsum := h.ledger.place r
    have hzero : s.whole.pushed r = 0 := State.pushed_eq hpost
    have hsame : s.whole.handled r = s.service.handled r := rfl
    omega
  refine ⟨h.ledger, h.fault, fun q => ?_, fun q y hy => ?_, fun q hq => ?_, fun timer q => ?_,
    ?_, fun q => ?_⟩
  · show update s.request r (some x.request) q =
      if s.service.handled q = 0 then (update s.made r (some x) q).map Record.request else none
    by_cases hq : q = r
    · rw [hq, update_self, update_self, if_pos hnot]
      rfl
    · rw [update_of_ne hq, update_of_ne hq]
      exact h.alive q
  · by_cases hq : q = r
    · exact .inl (hq ▸ hpost)
    · rcases made_make.mp hy with ⟨hqr, -⟩ | ⟨-, hy⟩
      · exact absurd hqr hq
      · exact h.posted q y hy
  · show (update s.made r (some x) q).isSome
    by_cases hqr : q = r
    · rw [hqr, update_self]
      rfl
    · rw [update_of_ne hqr]
      exact h.pushed q hq
  · exact h.owner_make hfresh hnot hfree timer q
  · rw [handles_make, if_neg]
    · exact h.null
    · rintro ⟨ho, hzero⟩
      exact bne_iff_ne.mp (Bool.and_eq_true_iff.mp ho).2 hzero.symm
  · show s.closes q =
      if (update s.made r (some x) q).any Record.owns then s.service.handled q else 0
    have hcloses := h.closes q
    by_cases hq : q = r
    · subst hq
      rw [hnot, ite_self] at hcloses ⊢
      exact hcloses
    · rw [update_of_ne hq]
      exact hcloses

/-- A handle that is not a request's comes or goes. -/
theorem Books.setHandle {s : State} (h : Books s) {timer : ℕ} {holder : Option Holder}
    (hold : ∀ r, s.handles timer ≠ some (.request r)) (hnew : ∀ r, holder ≠ some (.request r))
    (hnull : timer = 0 → holder = none) :
    Books { s with handles := update s.handles timer holder } := by
  refine { h with
    owner := fun other r => (?_ : update s.handles timer holder other = _ ↔ _)
    null := (?_ : update s.handles timer holder 0 = none) }
  · rw [← h.owner other r]
    by_cases hother : other = timer
    · rw [hother, update_self]
      exact iff_of_false (hnew r) (hold r)
    · rw [update_of_ne hother]
  · by_cases hzero : 0 = timer
    · rw [← hzero, update_self]
      exact hnull hzero.symm
    · rw [update_of_ne hzero]
      exact h.null

theorem Books.closeHandle {s : State} (h : Books s) {timer : ℕ}
    (hcaller : s.handles timer = some .caller) : Books (s.closeHandle timer) := by
  refine (h.cancel timer).setHandle (fun r hr => ?_) nofun fun _ => rfl
  have hopen : s.handles timer = some (.request r) := hr
  rw [hcaller] at hopen
  cases hopen

theorem workStep_aside {s t : TimerService.State} (ht : workStep s = some t) :
    t.handled = s.handled ∧ t.posts = s.posts := by
  cases workStep_case ht with
  | _ => exact ⟨rfl, rfl⟩

theorem reactStep_aside {s t : TimerService.State} {k : ℕ} (hk : handling s.reactors[k]? = none)
    (ht : reactStep s k = some t) : t.handled = s.handled ∧ t.posts = s.posts := by
  cases reactStep_case ht with
  | handle hr =>
      rw [hr] at hk
      cases hk
  | _ => exact ⟨rfl, rfl⟩

theorem apcStep_aside {s t : TimerService.State} (ht : apcStep s = some t) :
    t.handled = s.handled ∧ t.posts = s.posts := by
  cases apcStep_case ht with
  | _ => exact ⟨rfl, rfl⟩

theorem serviceStep_books {s s' : State} {act : TimerService.Act} (h : Books s)
    (hs : serviceStep s act = some s') : Books s' := by
  have hledger := serviceStep_ledger h.ledger hs
  cases serviceStep_case hs with
  | post hmade ht => exact h.post hmade ht
  | arm hw => exact h.setWaitableTimer hw
  | work hw ht => exact h.aside hledger (workStep_aside ht).1 (workStep_aside ht).2
  | apc ht =>
      have hbooks := h.aside hledger (apcStep_aside ht).1 (apcStep_aside ht).2
      refine { hbooks with fault := ?_ }
      -- the request of an APC is there
      have halive : (((s.service.apcs.head?).bind expired).any fun r => (s.request r).isNone) =
          false := by
        cases happ : s.service.apcs with
        | nil => rfl
        | cons apc rest =>
            cases apc with
            | shutdown => rfl
            | expired r =>
                obtain ⟨-, -, x, -, hr⟩ := h.alive_of_expired (happ ▸ List.mem_cons_self)
                show (s.request r).isNone = false
                rw [hr]
                rfl
      show (s.fault || _) = false
      rw [h.fault, halive]
      rfl
  | expire hdue ht =>
      obtain ⟨-, rfl⟩ := expireStep_eq ht
      exact h.aside hledger rfl rfl
  | handle hk ht => exact h.handle hk ht
  | react hk ht => exact h.aside hledger (reactStep_aside hk ht).1 (reactStep_aside hk ht).2
  | enter ht =>
      refine h.aside hledger ?_ (enterStep_within ht).posts
      cases enterStep_case ht with
      | _ => rfl
  | shutdown ht =>
      refine h.aside hledger ?_ (shutdownStep_aside ht).posts
      cases shutdownStep_case ht with
      | _ => rfl

theorem step_books {s s' : State} {act : Act} (h : Books s) (hs : step s act = some s') :
    Books s' := by
  cases act with
  | make r timeout timer owned =>
      obtain ⟨⟨hpost, hfresh, hfree⟩, heq⟩ := Option.ite_none_right_eq_some.mp hs
      rw [← Option.some.inj heq]
      exact h.make hpost (Option.isNone_iff_eq_none.mp hfresh) hfree
  | service act => exact serviceStep_books h hs
  | tick steps =>
      rw [← Option.some.inj hs]
      exact { h with }
  | create timer =>
      obtain ⟨⟨hne, hfree⟩, heq⟩ := Option.ite_none_right_eq_some.mp hs
      rw [← Option.some.inj heq]
      apply h.setHandle
      · intro r hr
        rw [hfree] at hr
        cases hr
      · exact nofun
      · exact fun hzero => absurd hzero hne
  | close timer =>
      obtain ⟨hcaller, heq⟩ := Option.ite_none_right_eq_some.mp hs
      rw [← Option.some.inj heq]
      exact h.closeHandle hcaller

end Coroutines.TimerService.Requests
