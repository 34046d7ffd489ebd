import Coroutines.Lib.Epoll
import Coroutines.Lib.Transition
import Mathlib.Algebra.Order.Ring.Int

/-!
# Awaitable timers

`applications/timers/nix-timerfd/awaitable_timer.hpp`. An object owns a timer descriptor, which
its constructor adds to the interest list of an io context with a pointer to the coroutine
slot of the object, `async_ctx`. To await the object fills the slot and arms the descriptor;
when it expires the reactor resumes the coroutine in the slot that the event points to.

A timeout is split into seconds and nanoseconds, and the kernel checks the two parts: they are
refused if one is negative, and if both are zero the timer is disarmed.
-/

namespace Coroutines.AwaitableTimer

open Transition Function

/-! ## Timer descriptors -/

/-- What a timer descriptor is set to. -/
inductive Setting
  | disarmed
  | armed (sec ns : ℤ)
  | expired
deriving DecidableEq

/-- The timer descriptors that are open. -/
abbrev Timers := ℕ → Option Setting

/-- `timerfd_settime` without an interval, if it succeeds. -/
def timerfdSettime (timers : Timers) (fd : Option ℕ) (sec ns : ℤ) : Option Timers := do
  let fd ← fd
  let _ ← timers fd
  if sec < 0 ∨ ns < 0 ∨ 999999999 < ns then none
  else some (update timers fd (some (if sec = 0 ∧ ns = 0 then .disarmed else .armed sec ns)))

/-! ## The objects -/

/-- `awaitable_timer`. -/
structure Object where
  /-- The io context, if the member was initialized. -/
  ioc : Option ℤ
  /-- The descriptor, if it is not `-1`. -/
  fd : Option ℕ
  sec : ℤ
  ns : ℤ
  /-- `async_ctx.awaiting_coro`. -/
  awaitingCoro : Option ℕ

/-- `duration_cast<seconds>(timeout)`, and the nanoseconds that are left. -/
def splitTimeout (timeout : ℤ) : ℤ × ℤ :=
  let sec := timeout.tdiv 1000000000
  (sec, timeout - sec * 1000000000)

structure State where
  /-- The object at an address, if one lives there. -/
  objects : ℕ → Option Object
  timers : Timers
  /-- The interest list of each io context; an event points to the slot of an object. -/
  tables : ℤ → Epoll.Table ℕ
  /-- History: the timeout each descriptor was created for, the coroutine that last awaited
  each object, and the coroutines that were resumed on an expiration, if there was one. -/
  timeouts : ℕ → ℤ
  lastAwaiter : ℕ → Option ℕ
  resumed : List (Option ℕ)

def initial : State where
  objects := fun _ => none
  timers := fun _ => none
  tables := fun _ _ => none
  timeouts := fun _ => 0
  lastAwaiter := fun _ => none
  resumed := []

/-- An object is constructed, or awaited by a coroutine. -/
def State.place (s : State) (a : ℕ) (x : Object) (awaiter : Option ℕ) : State :=
  { s with
    objects := update s.objects a (some x)
    lastAwaiter := update s.lastAwaiter a awaiter }

/-- `timerfd_create`, for an object with that timeout. -/
def State.createTimer (s : State) (fd : ℕ) (timeout : ℤ) : State :=
  { s with
    timers := update s.timers fd (some .disarmed)
    timeouts := update s.timeouts fd timeout }

/-- The constructor, given what `timerfd_create` returns and whether `epoll_ctl` accepts. If one
of them fails it throws; the descriptor stays open then. -/
def State.construct (s : State) (a : ℕ) (ioc : ℤ) (timeout : ℤ) (created : Option ℕ)
    (accepted : Bool) : Option State :=
  match created with
  | none => some s
  | some fd =>
    if s.timers fd = none then
      let s := s.createTimer fd timeout
      match if accepted then (s.tables ioc).add fd ⟨{ input := true }, a⟩ else none with
      | none => some s
      | some table =>
        let parts := splitTimeout timeout
        let x : Object := {
          ioc := some ioc
          fd := some fd
          sec := parts.1
          ns := parts.2
          awaitingCoro := none }
        some ({ s with tables := update s.tables ioc table }.place a x none)
    else none

/-- `close`: the descriptor drops out of every interest list, whatever `ioc` is. -/
def State.close (s : State) (x : Object) : State :=
  match x.fd with
  | none => s
  | some fd => { s with
      timers := update s.timers fd none
      tables := fun ioc => update (s.tables ioc) fd none }

/-- What a move leaves of its source. -/
def Object.moved (x : Object) : Object := { x with fd := none, sec := 0, ns := 0 }

/-- `rearm`. -/
def Object.rearm (me : Object) (timers : Timers) : Option Timers :=
  timerfdSettime timers me.fd me.sec me.ns

/-- `await_suspend`, and what it returns. -/
def State.awaitSuspend (s : State) (a c : ℕ) : Option (Bool × State) := do
  let me ← s.objects a
  let s := s.place a { me with awaitingCoro := some c } (some c)
  match me.rearm s.timers with
  | some timers => some (true, { s with timers := timers })
  | none => some (false, s)

/-- `on_timer_expire`; there is nothing to resume in the slot of an object that is gone, or
that was never awaited. -/
def State.onTimerExpire (s : State) (ctx : ℕ) : State :=
  { s with resumed := s.resumed ++ [(s.objects ctx).bind Object.awaitingCoro] }

inductive Act
  | construct (a : ℕ) (ioc timeout : ℤ) (created : Option ℕ) (accepted : Bool)
  | moveConstruct (a src : ℕ)
  | moveAssign (dst src : ℕ)
  | destroy (a : ℕ)
  | await (a c : ℕ)
  /-- An armed descriptor expires. -/
  | expire (fd : ℕ)
  /-- The reactor of an io context handles the event of a descriptor. -/
  | event (ioc : ℤ) (fd : ℕ)

def step (s : State) : Act → Option State
  | .construct a ioc timeout created accepted =>
      if s.objects a = none then s.construct a ioc timeout created accepted else none
  | .moveConstruct a src => do
      let x ← s.objects src
      if s.objects a = none then
        let new : Object :=
          { ioc := none, fd := x.fd, sec := x.sec, ns := x.ns, awaitingCoro := none }
        some ({ s with objects := update s.objects src (some x.moved) }.place a new none)
      else none
  | .moveAssign dst src => do
      let d ← s.objects dst
      let x ← s.objects src
      if dst = src then some s
      else
        let s := s.close d
        let new := { d with fd := x.fd, sec := x.sec, ns := x.ns }
        some { s with objects := update (update s.objects src (some x.moved)) dst (some new) }
  | .destroy a => do
      let x ← s.objects a
      let s := s.close x
      some { s with objects := update s.objects a none }
  | .await a c => (s.awaitSuspend a c).map Prod.snd
  | .expire fd =>
      match s.timers fd with
      | some (.armed _ _) => some { s with timers := update s.timers fd (some .expired) }
      | _ => none
  | .event ioc fd => do
      let ev ← (s.tables ioc).report fd { input := s.timers fd = some .expired }
      if ev.events.input then some (s.onTimerExpire ev.data) else none

def system : System State Act where
  Init s := s = initial
  step := step

/-! ## Who owns a descriptor -/

/-- An object fits the kernel: its descriptor is open, and it has the parts of its timeout. -/
structure State.Fits (s : State) (a : ℕ) (x : Object) : Prop where
  opened : ∀ fd, x.fd = some fd → s.timers fd ≠ none
  split : ∀ fd, x.fd = some fd → (x.sec, x.ns) = splitTimeout (s.timeouts fd)
  awaiter : x.awaitingCoro = s.lastAwaiter a

structure Owned (s : State) : Prop where
  fits : ∀ a x, s.objects a = some x → s.Fits a x
  unique : ∀ a b x y fd, s.objects a = some x → s.objects b = some y →
    x.fd = some fd → y.fd = some fd → a = b

theorem update_eq_some {f : ℕ → Option Object} {a b : ℕ} {o : Option Object} {y : Object}
    (h : update f a o b = some y) : b = a ∧ o = some y ∨ b ≠ a ∧ f b = some y := by
  by_cases hba : b = a
  · rw [hba, update_self] at h
    exact Or.inl ⟨hba, h⟩
  · rw [update_of_ne hba] at h
    exact Or.inr ⟨hba, h⟩

section
variable {s s' : State}

/-- The kernel may change what no object owns, and what the owned descriptors are set to. -/
theorem Owned.kernel (h : Owned s) (hobjects : s'.objects = s.objects)
    (hlast : s'.lastAwaiter = s.lastAwaiter)
    (hkeep : ∀ a x fd, s.objects a = some x → x.fd = some fd →
      s'.timers fd ≠ none ∧ s'.timeouts fd = s.timeouts fd) : Owned s' := by
  constructor
  · intro a x ha
    rw [hobjects] at ha
    have hold := h.fits a x ha
    constructor
    · exact fun fd hfd => (hkeep a x fd ha hfd).1
    · intro fd hfd
      rw [(hkeep a x fd ha hfd).2]
      exact hold.split fd hfd
    · rw [hlast]
      exact hold.awaiter
  · rw [hobjects]
    exact h.unique

/-- An object comes, goes or changes, and owns what no other does. -/
theorem Owned.replace (h : Owned s) {a : ℕ} {o : Option Object}
    (hobjects : s'.objects = update s.objects a o) (htimers : s'.timers = s.timers)
    (htimeouts : s'.timeouts = s.timeouts)
    (hlast : ∀ b, b ≠ a → s'.lastAwaiter b = s.lastAwaiter b)
    (hself : ∀ x, o = some x → s'.Fits a x ∧
      ∀ b y fd, b ≠ a → s.objects b = some y → x.fd = some fd → y.fd ≠ some fd) :
    Owned s' := by
  constructor
  · intro b y hb
    rw [hobjects] at hb
    rcases update_eq_some hb with ⟨rfl, ho⟩ | ⟨hba, hb'⟩
    · exact (hself y ho).1
    · have hold := h.fits b y hb'
      constructor
      · rw [htimers]
        exact hold.opened
      · rw [htimeouts]
        exact hold.split
      · rw [hlast b hba]
        exact hold.awaiter
  · intro b c y z fd hb hc hy hz
    rw [hobjects] at hb hc
    rcases update_eq_some hb with ⟨rfl, ho⟩ | ⟨hba, hb'⟩
    · rcases update_eq_some hc with ⟨rfl, -⟩ | ⟨hca, hc'⟩
      · rfl
      · exact absurd hz ((hself y ho).2 c z fd hca hc' hy)
    · rcases update_eq_some hc with ⟨rfl, ho⟩ | ⟨-, hc'⟩
      · exact absurd hy ((hself z ho).2 b y fd hba hb' hz)
      · exact h.unique b c y z fd hb' hc' hy hz

theorem timerfdSettime_eq_some {timers timers' : Timers} {fd : Option ℕ} {sec ns : ℤ}
    (h : timerfdSettime timers fd sec ns = some timers') :
    ∃ k, fd = some k ∧ timers k ≠ none ∧ 0 ≤ sec ∧ 0 ≤ ns ∧ ns ≤ 999999999 ∧
      timers' = update timers k (some (if sec = 0 ∧ ns = 0 then .disarmed else .armed sec ns)) := by
  obtain ⟨k, hfd, hrest⟩ := Option.bind_eq_some_iff.mp h
  obtain ⟨setting, hk, hrest⟩ := Option.bind_eq_some_iff.mp hrest
  split at hrest
  · cases hrest
  · rename_i hvalid
    refine ⟨k, hfd, ?_, ?_, ?_, ?_, (Option.some.inj hrest).symm⟩
    · rw [hk]
      exact Option.some_ne_none _
    · omega
    · omega
    · omega

@[simp] theorem close_objects (s : State) (d : Object) : (s.close d).objects = s.objects := by
  rw [State.close]
  split
  · rfl
  · rfl

/-- Closing a descriptor does not depend on the objects. -/
theorem close_setObjects (s : State) (d : Object) (objects : ℕ → Option Object) :
    State.close { s with objects := objects } d = { s.close d with objects := objects } := by
  rw [State.close, State.close]
  split
  · rfl
  · rfl

theorem close_lastAwaiter (s : State) (d : Object) : (s.close d).lastAwaiter = s.lastAwaiter := by
  rw [State.close]
  split
  · rfl
  · rfl

/-- A descriptor without an owner may be closed. -/
theorem Owned.close (h : Owned s) {d : Object}
    (hfree : ∀ a x fd, s.objects a = some x → x.fd = some fd → d.fd ≠ some fd) :
    Owned (s.close d) := by
  rw [State.close]
  split
  · exact h
  · rename_i k hk
    refine h.kernel rfl rfl fun a x fd ha hfd => ⟨?_, rfl⟩
    have hne : fd ≠ k := by
      rintro rfl
      exact hfree a x fd ha hfd hk
    show update s.timers k none fd ≠ none
    rw [update_of_ne hne]
    exact (h.fits a x ha).opened fd hfd

/-! ## Every step -/

/-- The constructor throws, with or without a descriptor left open, or the object is there and
its descriptor on the interest list. -/
theorem construct_cases {a : ℕ} {ioc timeout : ℤ} {created : Option ℕ} {accepted : Bool}
    (hstep : s.construct a ioc timeout created accepted = some s') :
    s' = s ∨ ∃ fd, s.timers fd = none ∧ (s' = s.createTimer fd timeout ∨
      ∃ table, (s.tables ioc).add fd ⟨{ input := true }, a⟩ = some table ∧
        s' = { s.createTimer fd timeout with tables := update s.tables ioc table }.place a
          ⟨some ioc, some fd, (splitTimeout timeout).1, (splitTimeout timeout).2, none⟩ none) := by
  rcases created with _ | fd
  · exact Or.inl (Option.some.inj hstep).symm
  obtain ⟨hunused, hstep⟩ := Option.ite_none_right_eq_some.mp hstep
  refine Or.inr ⟨fd, hunused, ?_⟩
  split at hstep
  · exact Or.inl (Option.some.inj hstep).symm
  · rename_i table hadd
    obtain ⟨-, hadd⟩ := Option.ite_none_right_eq_some.mp hadd
    exact Or.inr ⟨table, hadd, (Option.some.inj hstep).symm⟩

theorem moveConstruct_cases {a src : ℕ} (hstep : step s (.moveConstruct a src) = some s') :
    ∃ x, s.objects src = some x ∧ s.objects a = none ∧
      s' = State.place { s with objects := update s.objects src (some x.moved) } a
        ⟨none, x.fd, x.sec, x.ns, none⟩ none := by
  obtain ⟨x, hx, hstep⟩ := Option.bind_eq_some_iff.mp hstep
  obtain ⟨hnone, heq⟩ := Option.ite_none_right_eq_some.mp hstep
  exact ⟨x, hx, hnone, (Option.some.inj heq).symm⟩

/-- A self-assignment does nothing; otherwise the destination closes its own descriptor. -/
theorem moveAssign_cases {dst src : ℕ} (hstep : step s (.moveAssign dst src) = some s') :
    ∃ d x, s.objects dst = some d ∧ s.objects src = some x ∧ (dst = src ∧ s' = s ∨ dst ≠ src ∧
      s' = { s.close d with
        objects := update (update s.objects src (some x.moved)) dst
          (some { d with fd := x.fd, sec := x.sec, ns := x.ns }) }) := by
  obtain ⟨d, hd, hstep⟩ := Option.bind_eq_some_iff.mp hstep
  obtain ⟨x, hx, hstep⟩ := Option.bind_eq_some_iff.mp hstep
  refine ⟨d, x, hd, hx, ?_⟩
  by_cases hself : dst = src
  · rw [if_pos hself] at hstep
    exact Or.inl ⟨hself, (Option.some.inj hstep).symm⟩
  · rw [if_neg hself] at hstep
    refine Or.inr ⟨hself, ?_⟩
    rw [← Option.some.inj hstep, close_objects]

theorem destroy_cases {a : ℕ} (hstep : step s (.destroy a) = some s') :
    ∃ x, s.objects a = some x ∧
      s' = { s.close x with objects := update s.objects a none } := by
  obtain ⟨x, hx, heq⟩ := Option.bind_eq_some_iff.mp hstep
  refine ⟨x, hx, ?_⟩
  rw [← Option.some.inj heq, close_objects]

theorem expire_cases {fd : ℕ} (hstep : step s (.expire fd) = some s') :
    ∃ sec ns, s.timers fd = some (.armed sec ns) ∧
      s' = { s with timers := update s.timers fd (some .expired) } := by
  simp only [step] at hstep
  split at hstep
  · rename_i sec ns hfd
    exact ⟨sec, ns, hfd, (Option.some.inj hstep).symm⟩
  · cases hstep

/-- The descriptor of an event was added for it and has expired. -/
theorem event_cases {ioc : ℤ} {fd : ℕ} (hstep : step s (.event ioc fd) = some s') :
    ∃ e, s.tables ioc fd = some e ∧ s.timers fd = some .expired ∧ s' = s.onTimerExpire e.data := by
  obtain ⟨ev, hreport, hstep⟩ := Option.bind_eq_some_iff.mp hstep
  obtain ⟨hinput, heq⟩ := Option.ite_none_right_eq_some.mp hstep
  rw [Epoll.Table.report] at hreport
  split at hreport
  · cases hreport
  · rename_i e he
    obtain ⟨-, hev⟩ := Option.ite_none_left_eq_some.mp hreport
    rw [← Option.some.inj hev] at hinput heq
    refine ⟨e, he, ?_, (Option.some.inj heq).symm⟩
    simp only [Epoll.Events.visible, Bool.and_eq_true, decide_eq_true_eq] at hinput
    exact hinput.2

/-- What is owned is not the descriptor that is opened. -/
theorem Owned.ne_of_unused (h : Owned s) {fd : ℕ} (hunused : s.timers fd = none) :
    ∀ b y k, s.objects b = some y → y.fd = some k → k ≠ fd := by
  rintro b y k hb hk rfl
  exact (h.fits b y hb).opened k hk hunused

theorem Owned.createTimer (h : Owned s) {fd : ℕ} (hunused : s.timers fd = none) (timeout : ℤ) :
    Owned (s.createTimer fd timeout) := by
  refine h.kernel rfl rfl fun b y k hb hk => ?_
  have hne := h.ne_of_unused hunused b y k hb hk
  refine ⟨?_, update_of_ne hne _ _⟩
  show update s.timers fd _ k ≠ none
  rw [update_of_ne hne]
  exact (h.fits b y hb).opened k hk

theorem Owned.construct (h : Owned s) {a : ℕ} {ioc timeout : ℤ} {created : Option ℕ}
    {accepted : Bool} (hstep : s.construct a ioc timeout created accepted = some s') :
    Owned s' := by
  rcases construct_cases hstep with rfl | ⟨fd, hunused, rfl | ⟨table, -, rfl⟩⟩
  · exact h
  · exact h.createTimer hunused timeout
  refine (h.createTimer hunused timeout).replace rfl rfl rfl (fun b hb => update_of_ne hb _ _) ?_
  rintro x ⟨⟩
  refine ⟨⟨?_, ?_, (update_self a none s.lastAwaiter).symm⟩, ?_⟩
  · rintro k ⟨⟩
    show update s.timers fd _ fd ≠ none
    rw [update_self]
    exact Option.some_ne_none _
  · rintro k ⟨⟩
    show _ = splitTimeout (update s.timeouts fd timeout fd)
    rw [update_self]
  · rintro b y k - hb ⟨⟩ hk
    exact h.ne_of_unused hunused b y fd hb hk rfl

/-- A source that was moved from owns nothing. -/
theorem Owned.moveOut (h : Owned s) {src : ℕ} {x : Object} (hx : s.objects src = some x) :
    Owned { s with objects := update s.objects src (some x.moved) } := by
  refine h.replace rfl rfl rfl (fun _ _ => rfl) ?_
  rintro y ⟨⟩
  refine ⟨⟨?_, ?_, ?_⟩, ?_⟩
  · rintro k ⟨⟩
  · rintro k ⟨⟩
  · exact (h.fits src x hx).awaiter
  · rintro b y k - - ⟨⟩

/-- The descriptor of an object that is moved from gets a new owner. -/
theorem Owned.moveIn (h : Owned s) {src : ℕ} {x : Object} (hx : s.objects src = some x)
    (dst : ℕ) (y : Object) (hfd : y.fd = x.fd) (hsec : y.sec = x.sec) (hns : y.ns = x.ns) :
    Owned (State.place { s with objects := update s.objects src (some x.moved) } dst y
      y.awaitingCoro) := by
  have hold := h.fits src x hx
  refine (h.moveOut hx).replace rfl rfl rfl (fun b hb => update_of_ne hb _ _) ?_
  rintro z ⟨⟩
  refine ⟨⟨?_, ?_, ?_⟩, ?_⟩
  · rw [hfd]
    exact hold.opened
  · rw [hfd, hsec, hns]
    exact hold.split
  · exact (update_self dst y.awaitingCoro s.lastAwaiter).symm
  · intro b z k hb hz hk hzk
    rw [hfd] at hk
    rcases update_eq_some hz with ⟨-, ho⟩ | ⟨hsrc, hz'⟩
    · rw [← Option.some.inj ho] at hzk
      cases hzk
    · exact hsrc (h.unique b src z x k hz' hx hzk hk)

theorem Owned.moveAssign (h : Owned s) {dst src : ℕ} {d x : Object} (hne : dst ≠ src)
    (hd : s.objects dst = some d) (hx : s.objects src = some x) :
    Owned { s.close d with
      objects := update (update s.objects src (some x.moved)) dst
        (some { d with fd := x.fd, sec := x.sec, ns := x.ns }) } := by
  -- the descriptor of the destination has no owner when it is closed
  have hclosed : Owned
      (State.close { s with objects := update s.objects dst (some d.moved) } d) := by
    refine (h.moveOut hd).close fun b y k hb hk hdk => ?_
    rcases update_eq_some hb with ⟨-, ho⟩ | ⟨hdst, hb'⟩
    · rw [← Option.some.inj ho] at hk
      cases hk
    · exact hdst (h.unique b dst y d k hb' hd hk hdk)
  rw [close_setObjects] at hclosed
  have hsrc : update s.objects dst (some d.moved) src = some x := by
    rw [update_of_ne hne.symm]
    exact hx
  have hmoved := hclosed.moveIn hsrc dst { d with fd := x.fd, sec := x.sec, ns := x.ns }
    rfl rfl rfl
  have hawaiter : update (s.close d).lastAwaiter dst d.awaitingCoro = (s.close d).lastAwaiter := by
    rw [close_lastAwaiter, (h.fits dst d hd).awaiter, update_eq_self]
  simp only [State.place, update_comm hne, update_idem, hawaiter] at hmoved
  exact hmoved

/-- `await_suspend` fills the slot, and returns whether the descriptor could be set. -/
theorem awaitSuspend_cases {a c : ℕ} {r : Bool} (hstep : s.awaitSuspend a c = some (r, s')) :
    ∃ me, s.objects a = some me ∧
      (r = true ∧ (∃ timers, me.rearm s.timers = some timers ∧
          s' = { s.place a { me with awaitingCoro := some c } (some c) with timers := timers }) ∨
        r = false ∧ me.rearm s.timers = none ∧
          s' = s.place a { me with awaitingCoro := some c } (some c)) := by
  obtain ⟨me, hme, hrest⟩ := Option.bind_eq_some_iff.mp hstep
  refine ⟨me, hme, ?_⟩
  change (match me.rearm s.timers with
    | some timers => some (true,
        { s.place a { me with awaitingCoro := some c } (some c) with timers := timers })
    | none => some (false, s.place a { me with awaitingCoro := some c } (some c))) =
      some (r, s') at hrest
  cases hset : me.rearm s.timers with
  | none =>
      rw [hset] at hrest
      obtain ⟨hr, hs'⟩ := Prod.mk.inj (Option.some.inj hrest)
      exact Or.inr ⟨hr.symm, rfl, hs'.symm⟩
  | some timers =>
      rw [hset] at hrest
      obtain ⟨hr, hs'⟩ := Prod.mk.inj (Option.some.inj hrest)
      exact Or.inl ⟨hr.symm, timers, rfl, hs'.symm⟩

theorem awaitSuspend_of_rearm {a : ℕ} {me : Object} {timers : Timers}
    (hme : s.objects a = some me) (hset : me.rearm s.timers = some timers) (c : ℕ) :
    s.awaitSuspend a c = some (true,
      { s.place a { me with awaitingCoro := some c } (some c) with timers := timers }) := by
  rw [State.awaitSuspend, hme]
  change (match me.rearm s.timers with
    | some timers => some (true,
        { s.place a { me with awaitingCoro := some c } (some c) with timers := timers })
    | none => some (false, s.place a { me with awaitingCoro := some c } (some c))) = _
  rw [hset]

theorem Owned.await (h : Owned s) {a c : ℕ} {r : Bool}
    (hstep : s.awaitSuspend a c = some (r, s')) : Owned s' := by
  obtain ⟨me, hme, hcases⟩ := awaitSuspend_cases hstep
  have hold := h.fits a me hme
  have hplaced : Owned (s.place a { me with awaitingCoro := some c } (some c)) := by
    refine h.replace rfl rfl rfl (fun b hb => update_of_ne hb _ _) ?_
    rintro x ⟨⟩
    refine ⟨⟨hold.opened, hold.split, (update_self a (some c) s.lastAwaiter).symm⟩, ?_⟩
    intro b y k hb hy hk hyk
    exact hb (h.unique b a y me k hy hme hyk hk)
  rcases hcases with ⟨-, timers, hset, rfl⟩ | ⟨-, -, rfl⟩
  · obtain ⟨k, -, -, -, -, -, htimers⟩ := timerfdSettime_eq_some hset
    refine hplaced.kernel rfl rfl fun b y fd hb hfd => ⟨?_, rfl⟩
    show timers fd ≠ none
    rw [htimers]
    by_cases hfdk : fd = k
    · rw [hfdk, update_self]
      exact Option.some_ne_none _
    · rw [update_of_ne hfdk]
      exact (hplaced.fits b y hb).opened fd hfd
  · exact hplaced

theorem Owned.destroy (h : Owned s) {a : ℕ} {x : Object} (hx : s.objects a = some x) :
    Owned { s.close x with objects := update s.objects a none } := by
  have hgone : Owned { s with objects := update s.objects a none } := by
    refine h.replace rfl rfl rfl (fun _ _ => rfl) ?_
    rintro y ⟨⟩
  rw [← close_setObjects]
  -- nobody else has what it closes
  refine hgone.close fun b y k hb hk hxk => ?_
  rcases update_eq_some hb with ⟨-, ho⟩ | ⟨hba, hb'⟩
  · cases ho
  · exact hba (h.unique b a y x k hb' hx hk hxk)

theorem Owned.expire (h : Owned s) (fd : ℕ) :
    Owned { s with timers := update s.timers fd (some .expired) } := by
  refine h.kernel rfl rfl fun b y k hb hk => ⟨?_, rfl⟩
  show update s.timers fd _ k ≠ none
  by_cases hkfd : k = fd
  · rw [hkfd, update_self]
    exact Option.some_ne_none _
  · rw [update_of_ne hkfd]
    exact (h.fits b y hb).opened k hk

theorem Owned.step (h : Owned s) {act : Act} (hstep : step s act = some s') : Owned s' := by
  cases act with
  | construct a ioc timeout created accepted =>
      obtain ⟨-, hstep⟩ := Option.ite_none_right_eq_some.mp hstep
      exact h.construct hstep
  | moveConstruct a src =>
      obtain ⟨x, hx, -, rfl⟩ := moveConstruct_cases hstep
      exact h.moveIn hx a _ rfl rfl rfl
  | moveAssign dst src =>
      obtain ⟨d, x, hd, hx, ⟨-, rfl⟩ | ⟨hne, rfl⟩⟩ := moveAssign_cases hstep
      · exact h
      · exact h.moveAssign hne hd hx
  | destroy a =>
      obtain ⟨x, hx, rfl⟩ := destroy_cases hstep
      exact h.destroy hx
  | await a c =>
      obtain ⟨⟨r, t⟩, hawait, rfl⟩ := Option.map_eq_some_iff.mp hstep
      exact h.await hawait
  | expire fd =>
      obtain ⟨sec, ns, -, rfl⟩ := expire_cases hstep
      exact h.expire fd
  | event ioc fd =>
      obtain ⟨e, -, -, rfl⟩ := event_cases hstep
      exact h.kernel rfl rfl fun b y k hb hk => ⟨(h.fits b y hb).opened k hk, rfl⟩

theorem owned_of_reachable (h : system.Reachable s) : Owned s := by
  refine h.invariant ?_ fun _ _ _ hs _ hstep => hs.step hstep
  rintro _ rfl
  constructor
  case fits => exact fun _ _ ha => nomatch ha
  case unique => exact fun _ _ _ _ _ ha => nomatch ha

end

/-! ## What a timer is armed for -/

/-- The descriptor of the object is armed for exactly the timeout of the object. -/
def ArmedFor (s t : State) (x : Object) : Prop :=
  ∃ fd sec ns, x.fd = some fd ∧ t.timers fd = some (.armed sec ns) ∧
    sec * 1000000000 + ns = s.timeouts fd ∧ 0 ≤ ns ∧ ns < 1000000000

/-- A timer for no time at all. -/
theorem not_armed_for_zero :
    ¬ ∀ s, system.Reachable s → ∀ a c x, s.objects a = some x →
      ∀ t, s.awaitSuspend a c = some (true, t) → ArmedFor s t x := by
  intro h
  have hr : system.Reachable initial := .init rfl
  have hs := hr.run [.construct 0 3 0 (some 4) true] rfl
  obtain ⟨fd, sec, ns, hfd, harmed, -⟩ := h _ hs 0 7 _ rfl _ rfl
  cases hfd
  cases harmed

section
variable {s : State}

/-- The parts have the sign of the timeout, and make it up. -/
theorem splitTimeout_spec (timeout : ℤ) :
    (splitTimeout timeout).1 * 1000000000 + (splitTimeout timeout).2 = timeout ∧
      (0 ≤ timeout → 0 ≤ (splitTimeout timeout).1 ∧ 0 ≤ (splitTimeout timeout).2 ∧
        (splitTimeout timeout).2 ≤ 999999999) ∧
      (timeout < 0 → (splitTimeout timeout).1 < 0 ∨ (splitTimeout timeout).2 < 0) := by
  have hsum : (splitTimeout timeout).1 * 1000000000 + (splitTimeout timeout).2 = timeout := by
    rw [splitTimeout]
    omega
  refine ⟨hsum, fun hpos => ?_, fun hneg => ?_⟩
  · have hsec : (splitTimeout timeout).1 = timeout / 1000000000 :=
      Int.tdiv_eq_ediv_of_nonneg hpos
    omega
  · by_contra hnot
    omega

/-- Setting a descriptor to the parts of its timeout is refused for a negative timeout, and for
the timeout zero it disarms. -/
theorem settime_splitTimeout (timers : Timers) {fd : ℕ} (hfd : timers fd ≠ none) (timeout : ℤ) :
    timerfdSettime timers (some fd) (splitTimeout timeout).1 (splitTimeout timeout).2 =
      if timeout < 0 then none
      else some (update timers fd (some (if timeout = 0 then .disarmed
        else .armed (splitTimeout timeout).1 (splitTimeout timeout).2))) := by
  obtain ⟨setting, hopen⟩ := Option.ne_none_iff_exists'.mp hfd
  obtain ⟨hsum, hpos, hneg⟩ := splitTimeout_spec timeout
  simp only [timerfdSettime, Option.bind_eq_bind, Option.bind_some, hopen]
  by_cases hlt : timeout < 0
  · have hrefused := hneg hlt
    rw [if_pos hlt, if_pos (by omega)]
  · have hparts := hpos (not_lt.mp hlt)
    rw [if_neg hlt, if_neg (by omega)]
    by_cases hzero : timeout = 0
    · rw [if_pos hzero, if_pos (by omega)]
    · rw [if_neg hzero, if_neg (by omega)]

theorem Owned.rearm (h : Owned s) {a fd : ℕ} {x : Object} (hx : s.objects a = some x)
    (hfd : x.fd = some fd) :
    x.rearm s.timers = if s.timeouts fd < 0 then none
      else some (update s.timers fd (some (if s.timeouts fd = 0 then .disarmed
        else .armed (splitTimeout (s.timeouts fd)).1 (splitTimeout (s.timeouts fd)).2))) := by
  have hold := h.fits a x hx
  obtain ⟨hsec, hns⟩ := Prod.mk.inj (hold.split fd hfd)
  rw [Object.rearm, hfd, hsec, hns]
  exact settime_splitTimeout s.timers (hold.opened fd hfd) (s.timeouts fd)

/-- **An await that suspends has armed the timer, unless the timeout is zero**: for every
timeout, after any constructions, moves, awaits and expirations. -/
theorem arms_iff_nonzero (s : State) (h : system.Reachable s) (a c : ℕ) (x : Object)
    (hx : s.objects a = some x) :
    (∀ t, s.awaitSuspend a c = some (true, t) → ArmedFor s t x) ↔
      x.fd.map s.timeouts ≠ some 0 := by
  have howned := owned_of_reachable h
  rcases hfd : x.fd with _ | fd
  · -- an object that was moved from
    constructor
    · exact fun _ hzero => nomatch hzero
    · intro _ t hawait
      obtain ⟨me, hme, ⟨-, timers, hset, -⟩ | ⟨hr, -⟩⟩ := awaitSuspend_cases hawait
      · obtain rfl := Option.some.inj (hx.symm.trans hme)
        rw [Object.rearm, hfd] at hset
        cases hset
      · cases hr
  have hrearm := howned.rearm hx hfd
  constructor
  · intro harms hzero
    have htimeout : s.timeouts fd = 0 := Option.some.inj hzero
    rw [htimeout, if_neg (by decide), if_pos rfl] at hrearm
    obtain ⟨k, sec, ns, hk, harmed, -⟩ := harms _ (awaitSuspend_of_rearm hx hrearm c)
    obtain rfl : fd = k := Option.some.inj (hfd.symm.trans hk)
    have hset := (update_self fd (some Setting.disarmed) s.timers).symm.trans harmed
    cases hset
  · intro hnonzero t hawait
    obtain ⟨me, hme, ⟨-, timers, hset, rfl⟩ | ⟨hr, -⟩⟩ := awaitSuspend_cases hawait
    · obtain rfl := Option.some.inj (hx.symm.trans hme)
      rw [hrearm] at hset
      obtain ⟨hnonneg, hset⟩ := Option.ite_none_left_eq_some.mp hset
      have hne : s.timeouts fd ≠ 0 := fun hzero => hnonzero (congrArg some hzero)
      rw [if_neg hne] at hset
      obtain ⟨hsum, hpos, -⟩ := splitTimeout_spec (s.timeouts fd)
      obtain ⟨-, hlow, hhigh⟩ := hpos (not_lt.mp hnonneg)
      refine ⟨fd, _, _, hfd, ?_, hsum, hlow, Int.lt_of_le_sub_one hhigh⟩
      show timers fd = _
      rw [← Option.some.inj hset, update_self]
    · cases hr

/-- A second and a half, awaited after a move. -/
theorem arms_iff_nonzero_after_move :
    ∃ s x t, system.run initial [.construct 0 3 1500000000 (some 4) true, .moveConstruct 1 0] =
        some s ∧ s.objects 1 = some x ∧ s.awaitSuspend 1 7 = some (true, t) ∧ ArmedFor s t x := by
  have hr : system.Reachable initial := .init rfl
  have hs := hr.run [.construct 0 3 1500000000 (some 4) true, .moveConstruct 1 0] rfl
  exact ⟨_, _, _, rfl, rfl, rfl,
    (arms_iff_nonzero _ hs 1 7 _ rfl).mpr (by decide) _ rfl⟩

end

end Coroutines.AwaitableTimer
