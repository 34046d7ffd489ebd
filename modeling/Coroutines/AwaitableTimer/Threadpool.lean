import Coroutines.Lib.Transition
import Coroutines.TimerService.Filetime

/-!
# Awaitable timers of a thread pool

`applications/timers/win-pool/awaitable_timer.hpp`. The timer object of the pool is created with
the address of the `async_ctx` of the object that is constructed. A move carries the timer along,
and its callback goes on reading the coroutine from the old address. A move assignment also
assigns the io context behind the reference, which copies the handles of one io context over
those of the other.

To set a timer object replaces its setting. To close one cancels the setting, but not a callback
that is queued.
-/

namespace Coroutines.AwaitableTimer.Threadpool

open Transition Function TimerService

/-! ## The model -/

/-- Where a timer object stands. -/
inductive Phase
  | idle
  | set
  | queued       -- the callback is
  | closing      -- closed, and the callback is queued
deriving DecidableEq

/-- What `CreateThreadpoolTimer` makes. -/
structure Timer where
  /-- The object whose `async_ctx` the callback is given. -/
  ctx : ℕ
  phase : Phase
  timeout : Filetime

/-- `awaitable_timer`. -/
structure Object where
  ioc : ℕ
  timeout : Filetime
  timer : Option ℕ
  /-- `async_ctx.awaiting_coro`. -/
  awaitingCoro : Option ℕ

structure State where
  /-- The pool whose handles an io context holds. -/
  contexts : ℕ → ℕ
  /-- The object at an address, if one lives there. -/
  objects : ℕ → Option Object
  timers : ℕ → Option Timer
  /-- At which object a coroutine is suspended. -/
  suspended : ℕ → Option ℕ
  /-- History: the coroutines that were resumed, and whether a callback found none to resume or
  a timer was set that is not there. -/
  resumed : List ℕ
  fault : Bool

def initial : State where
  contexts := id
  objects := fun _ => none
  timers := fun _ => none
  suspended := fun _ => none
  resumed := []
  fault := false

inductive Act
  /-- `CreateThreadpoolTimer` may fail, and the constructor throws. -/
  | construct (a ioc : ℕ) (timeout : Duration) (timer : Option ℕ)
  | moveConstruct (dst src : ℕ)
  | moveAssign (dst src : ℕ)
  | destroy (a : ℕ)
  /-- `co_await`, by a coroutine that runs. -/
  | await (a c : ℕ)
  | expire (timer : ℕ)
  | callback (timer : ℕ)

/-- `CloseThreadpoolTimer`, unless the handle is invalid. -/
def State.closeTimer (s : State) : Option ℕ → State
  | none => s
  | some h =>
      { s with
        timers := update s.timers h ((s.timers h).bind fun tm =>
          if tm.phase = .queued then some { tm with phase := .closing } else none) }

def State.setThreadpoolTimer (s : State) (timer : Option ℕ) (timeout : Filetime) : State :=
  match timer.bind fun h => (s.timers h).map (h, ·) with
  | some (h, tm) =>
      { s with timers := update s.timers h (some { tm with phase := .set, timeout := timeout }) }
  | none => { s with fault := true }

/-- `await_suspend`. -/
def State.awaitSuspend (s : State) (a c : ℕ) (x : Object) : State :=
  State.setThreadpoolTimer
    { s with
      objects := update s.objects a (some { x with awaitingCoro := some c })
      suspended := update s.suspended c (some a) }
    x.timer x.timeout

/-- `on_timer_expiration`. -/
def State.onTimerExpiration (s : State) (ctx : ℕ) : State :=
  match (s.objects ctx).bind Object.awaitingCoro with
  | some c =>
      if (s.suspended c).isSome then
        { s with suspended := update s.suspended c none, resumed := s.resumed ++ [c] }
      else { s with fault := true }
  | none => { s with fault := true }

def State.move (s : State) (dst src ioc : ℕ) (x : Object) : State :=
  { s with
    objects := update (update s.objects src (some { x with timer := none })) dst
      (some { x with ioc := ioc }) }

def step (s : State) : Act → Option State
  | .construct _ _ _ none => some s
  | .construct a ioc timeout (some h) =>
      let timeout := timeoutToFiletime timeout
      if s.objects a = none ∧ s.timers h = none then
        some { s with
          objects := update s.objects a (some ⟨ioc, timeout, some h, none⟩)
          timers := update s.timers h (some ⟨a, .idle, timeout⟩) }
      else none
  | .moveConstruct dst src => do
      let x ← s.objects src
      if s.objects dst = none then some (s.move dst src x.ioc x) else none
  | .moveAssign dst src => do
      let d ← s.objects dst
      let x ← s.objects src
      if dst = src then some s
      else
        some { (s.closeTimer d.timer).move dst src d.ioc x with
          contexts := update s.contexts d.ioc (s.contexts x.ioc) }
  | .destroy a => do
      let x ← s.objects a
      some { s.closeTimer x.timer with objects := update s.objects a none }
  | .await a c => do
      let x ← s.objects a
      if s.suspended c = none then some (s.awaitSuspend a c x) else none
  | .expire h => do
      let tm ← s.timers h
      if tm.phase = .set then
        some { s with timers := update s.timers h (some { tm with phase := .queued }) }
      else none
  | .callback h => do
      let tm ← s.timers h
      match tm.phase with
      | .queued =>
          some (State.onTimerExpiration
            { s with timers := update s.timers h (some { tm with phase := .idle }) } tm.ctx)
      | .closing =>
          some (State.onTimerExpiration { s with timers := update s.timers h none } tm.ctx)
      | _ => none

def system : System State Act where
  Init s := s = initial
  step := step

/-- The timer of an object is set, or its callback is queued. -/
def State.Busy (s : State) (x : Object) : Prop :=
  ∃ h tm, x.timer = some h ∧ s.timers h = some tm ∧ tm.phase ≠ .idle

/-- What the timers promise: every coroutine that is suspended has a timer whose callback will
resume it, no callback finds nothing to resume, and none outlives its timer; and no two io
contexts hold the same pool. -/
structure State.Sound (s : State) : Prop where
  awaited : ∀ c a, s.suspended c = some a → ∃ h tm x, s.timers h = some tm ∧ tm.phase ≠ .idle ∧
    s.objects tm.ctx = some x ∧ x.awaitingCoro = some c
  valid : s.fault = false
  closed : ∀ h tm, s.timers h = some tm → tm.phase ≠ .closing
  contexts : Injective s.contexts

/-- A timer stays where it was constructed, is awaited by one coroutine at a time, and is not
destroyed meanwhile. -/
def InPlace (s : State) : Act → Prop
  | .moveConstruct _ _ => False
  | .moveAssign dst src => dst = src
  | .destroy a | .await a _ => ∀ x, s.objects a = some x → ¬ s.Busy x
  | _ => True

/-! ## Objects and their timers -/

/-- The object has the timer, which was created for it. -/
structure State.Slot (s : State) (a : ℕ) (x : Object) (h : ℕ) (tm : Timer) : Prop where
  object : s.objects a = some x
  handle : x.timer = some h
  timer : s.timers h = some tm
  ctx : tm.ctx = a

structure Inv (s : State) : Prop where
  own : ∀ a x, s.objects a = some x → ∃ h tm, s.Slot a x h tm
  owner : ∀ h tm, s.timers h = some tm → tm.phase ≠ .closing ∧ ∃ x, s.Slot tm.ctx x h tm
  pending : ∀ a x h tm, s.Slot a x h tm → tm.phase ≠ .idle →
    ∃ c, x.awaitingCoro = some c ∧ s.suspended c = some a ∧ tm.timeout = x.timeout
  waits : ∀ c a, s.suspended c = some a →
    ∃ x h tm, s.Slot a x h tm ∧ tm.phase ≠ .idle ∧ x.awaitingCoro = some c
  valid : s.fault = false
  contexts : Injective s.contexts
  bounded : ∃ n, ∀ c, n ≤ c → s.suspended c = none

theorem initial_inv : Inv initial where
  own _ _ hx := by cases hx
  owner _ _ htm := by cases htm
  pending _ _ _ _ hslot := by cases hslot.object
  waits _ _ hc := by cases hc
  valid := rfl
  contexts := injective_id
  bounded := ⟨0, fun _ _ => rfl⟩

section
variable {s t : State} {a h : ℕ} {x : Object} {tm : Timer}

theorem State.Slot.unique {y : Object} {k : ℕ} {km : Timer} (hslot : s.Slot a x h tm)
    (hother : s.Slot a y k km) : x = y ∧ h = k ∧ tm = km := by
  obtain rfl : x = y := Option.some.inj (hslot.object.symm.trans hother.object)
  obtain rfl : h = k := Option.some.inj (hslot.handle.symm.trans hother.handle)
  obtain rfl : tm = km := Option.some.inj (hslot.timer.symm.trans hother.timer)
  exact ⟨rfl, rfl, rfl⟩

theorem Inv.sound (hi : Inv s) : s.Sound where
  awaited c a hc := by
    obtain ⟨x, h, tm, hslot, hphase, hx⟩ := hi.waits c a hc
    exact ⟨h, tm, x, hslot.timer, hphase, hslot.ctx ▸ hslot.object, hx⟩
  valid := hi.valid
  closed h tm htm := (hi.owner h tm htm).1
  contexts := hi.contexts

/-- No other timer was created for the object. -/
theorem Inv.handle_eq (hi : Inv s) (hslot : s.Slot a x h tm) {k : ℕ} {km : Timer}
    (hk : s.timers k = some km) (hctx : km.ctx = a) : k = h := by
  obtain ⟨-, y, hother⟩ := hi.owner k km hk
  exact ((hctx ▸ hslot).unique hother).2.1.symm

/-- **One object changes**, with its timer. -/
theorem Inv.change (hi : Inv s) (hobjects : ∀ b, b ≠ a → t.objects b = s.objects b)
    (htimers : ∀ k, k ≠ h → t.timers k = s.timers k)
    (honly : ∀ k km, s.timers k = some km → km.ctx = a → k = h)
    (hmine : ∀ km, s.timers h = some km → km.ctx = a)
    (hobject : ∀ x, t.objects a = some x → ∃ tm, t.Slot a x h tm)
    (htimer : ∀ tm, t.timers h = some tm → tm.phase ≠ .closing ∧ ∃ x, t.Slot a x h tm)
    (hpending : ∀ x tm, t.Slot a x h tm → tm.phase ≠ .idle →
      ∃ c, x.awaitingCoro = some c ∧ t.suspended c = some a ∧ tm.timeout = x.timeout)
    (hwaits : ∀ c, t.suspended c = some a →
      ∃ x tm, t.Slot a x h tm ∧ tm.phase ≠ .idle ∧ x.awaitingCoro = some c)
    (hothers : ∀ c b, b ≠ a → (t.suspended c = some b ↔ s.suspended c = some b))
    (hvalid : t.fault = false) (hcontexts : t.contexts = s.contexts)
    (hbounded : ∃ n, ∀ c, n ≤ c → t.suspended c = none) : Inv t := by
  have hto : ∀ {b y k km}, b ≠ a → s.Slot b y k km → t.Slot b y k km := by
    intro b y k km hba hslot
    have hk : k ≠ h := by
      rintro rfl
      exact hba (hslot.ctx.symm.trans (hmine km hslot.timer))
    exact ⟨(hobjects b hba).trans hslot.object, hslot.handle, (htimers k hk).trans hslot.timer,
      hslot.ctx⟩
  have hfrom : ∀ {b y k km}, b ≠ a → t.Slot b y k km → s.Slot b y k km := by
    intro b y k km hba hslot
    have hk : k ≠ h := by
      rintro rfl
      obtain ⟨-, z, hz⟩ := htimer km hslot.timer
      exact hba (hslot.ctx.symm.trans hz.ctx)
    exact ⟨(hobjects b hba).symm.trans hslot.object, hslot.handle,
      (htimers k hk).symm.trans hslot.timer, hslot.ctx⟩
  constructor
  case own =>
    intro b y hy
    by_cases hba : b = a
    · subst hba
      obtain ⟨tm, hslot⟩ := hobject y hy
      exact ⟨h, tm, hslot⟩
    · rw [hobjects b hba] at hy
      obtain ⟨k, km, hslot⟩ := hi.own b y hy
      exact ⟨k, km, hto hba hslot⟩
  case owner =>
    intro k km hk
    by_cases hkh : k = h
    · subst hkh
      obtain ⟨hphase, y, hslot⟩ := htimer km hk
      exact ⟨hphase, y, hslot.ctx ▸ hslot⟩
    · rw [htimers k hkh] at hk
      obtain ⟨hphase, y, hslot⟩ := hi.owner k km hk
      exact ⟨hphase, y, hto (fun hctx => hkh (honly k km hk hctx)) hslot⟩
  case pending =>
    intro b y k km hslot hphase
    by_cases hba : b = a
    · subst hba
      have hkh : k = h := by
        by_contra hkh
        exact hkh (honly k km ((htimers k hkh).symm.trans hslot.timer) hslot.ctx)
      exact hpending y km (hkh ▸ hslot) hphase
    · obtain ⟨c, hy, hc, htimeout⟩ := hi.pending b y k km (hfrom hba hslot) hphase
      exact ⟨c, hy, (hothers c b hba).mpr hc, htimeout⟩
  case waits =>
    intro c b hc
    by_cases hba : b = a
    · subst hba
      obtain ⟨x, tm, hslot, hrest⟩ := hwaits c hc
      exact ⟨x, h, tm, hslot, hrest⟩
    · obtain ⟨y, k, km, hslot, hrest⟩ := hi.waits c b ((hothers c b hba).mp hc)
      exact ⟨y, k, km, hto hba hslot, hrest⟩
  case valid => exact hvalid
  case contexts => exact hcontexts ▸ hi.contexts
  case bounded => exact hbounded

/-- The object has the timer after the change. -/
theorem Inv.replace {y : Object} {m : Timer} (hi : Inv s) (hslot : t.Slot a y h m)
    (hobjects : ∀ b, b ≠ a → t.objects b = s.objects b)
    (htimers : ∀ k, k ≠ h → t.timers k = s.timers k)
    (honly : ∀ k km, s.timers k = some km → km.ctx = a → k = h)
    (hmine : ∀ km, s.timers h = some km → km.ctx = a) (hphase : m.phase ≠ .closing)
    (hpending : m.phase ≠ .idle →
      ∃ c, y.awaitingCoro = some c ∧ t.suspended c = some a ∧ m.timeout = y.timeout)
    (hwaits : ∀ c, t.suspended c = some a → m.phase ≠ .idle ∧ y.awaitingCoro = some c)
    (hothers : ∀ c b, b ≠ a → (t.suspended c = some b ↔ s.suspended c = some b))
    (hvalid : t.fault = false) (hcontexts : t.contexts = s.contexts)
    (hbounded : ∃ n, ∀ c, n ≤ c → t.suspended c = none) : Inv t := by
  refine hi.change hobjects htimers honly hmine ?_ ?_ ?_ ?_ hothers hvalid hcontexts hbounded
  · intro z hz
    obtain rfl : y = z := Option.some.inj (hslot.object.symm.trans hz)
    exact ⟨m, hslot⟩
  · intro km hkm
    obtain rfl : m = km := Option.some.inj (hslot.timer.symm.trans hkm)
    exact ⟨hphase, y, hslot⟩
  · intro z km hother hkm
    obtain ⟨rfl, -, rfl⟩ := hslot.unique hother
    exact hpending hkm
  · intro c hc
    exact ⟨y, m, hslot, hwaits c hc⟩

theorem Inv.not_busy_of_idle (hi : Inv s) (hslot : s.Slot a x h tm) (hidle : tm.phase = .idle)
    (c : ℕ) : s.suspended c ≠ some a := by
  intro hc
  obtain ⟨y, k, km, hother, hphase, -⟩ := hi.waits c a hc
  obtain ⟨-, -, rfl⟩ := hslot.unique hother
  exact hphase hidle

theorem State.Slot.idle (hslot : s.Slot a x h tm) (hbusy : ¬ s.Busy x) : tm.phase = .idle := by
  by_contra hphase
  exact hbusy ⟨h, tm, hslot.handle, hslot.timer, hphase⟩

theorem State.Slot.busy (hslot : s.Slot a x h tm) (hbusy : s.Busy x) : tm.phase ≠ .idle := by
  obtain ⟨k, km, hk, hkm, hphase⟩ := hbusy
  obtain rfl : h = k := Option.some.inj (hslot.handle.symm.trans hk)
  obtain rfl : tm = km := Option.some.inj (hslot.timer.symm.trans hkm)
  exact hphase

/-! ## What each step keeps -/

theorem Inv.construct (hi : Inv s) {ioc : ℕ} {timeout : Filetime} (ha : s.objects a = none)
    (hh : s.timers h = none) :
    Inv { s with
      objects := update s.objects a (some ⟨ioc, timeout, some h, none⟩)
      timers := update s.timers h (some ⟨a, .idle, timeout⟩) } := by
  have hnot : ∀ k km, s.timers k = some km → km.ctx ≠ a := by
    rintro k km hk rfl
    obtain ⟨-, y, hslot⟩ := hi.owner k km hk
    have hy := hslot.object
    rw [ha] at hy
    cases hy
  refine hi.replace (y := ⟨ioc, timeout, some h, none⟩) (m := ⟨a, .idle, timeout⟩)
    ⟨update_self _ _ _, rfl, update_self _ _ _, rfl⟩ (fun b hb => update_of_ne hb _ _)
    (fun k hk => update_of_ne hk _ _) (fun k km hk hctx => absurd hctx (hnot k km hk))
    (fun km hk => ?_) (by rintro ⟨⟩) (fun hphase => absurd rfl hphase) (fun c hc => ?_)
    (fun _ _ _ => Iff.rfl) hi.valid rfl hi.bounded
  · rw [hh] at hk
    cases hk
  · obtain ⟨y, k, km, hslot, -⟩ := hi.waits c a hc
    have hy := hslot.object
    rw [ha] at hy
    cases hy

theorem awaitSuspend_eq (hx : x.timer = some h) (hh : s.timers h = some tm) (c : ℕ) :
    s.awaitSuspend a c x =
      { s with
        objects := update s.objects a (some { x with awaitingCoro := some c })
        suspended := update s.suspended c (some a)
        timers := update s.timers h (some { tm with phase := .set, timeout := x.timeout }) } := by
  rw [State.awaitSuspend, State.setThreadpoolTimer, hx, Option.bind_some, hh]
  rfl

theorem Inv.await (hi : Inv s) (hslot : s.Slot a x h tm) (hidle : tm.phase = .idle) {c : ℕ}
    (hc : s.suspended c = none) : Inv (s.awaitSuspend a c x) := by
  rw [awaitSuspend_eq hslot.handle hslot.timer]
  refine hi.replace (y := { x with awaitingCoro := some c })
    (m := { tm with phase := .set, timeout := x.timeout })
    ⟨update_self _ _ _, hslot.handle, update_self _ _ _, hslot.ctx⟩
    (fun b hb => update_of_ne hb _ _) (fun k hk => update_of_ne hk _ _)
    (fun _ _ => hi.handle_eq hslot) (fun km hk => ?_) (by rintro ⟨⟩) (fun _ => ?_) (fun d hd => ?_)
    (fun d b hb => ?_) hi.valid rfl ?_
  · obtain rfl : tm = km := Option.some.inj (hslot.timer.symm.trans hk)
    exact hslot.ctx
  · exact ⟨c, rfl, update_self _ _ _, rfl⟩
  · by_cases hdc : d = c
    · exact ⟨by rintro ⟨⟩, hdc ▸ rfl⟩
    · exact absurd ((update_of_ne hdc _ _).symm.trans hd) (hi.not_busy_of_idle hslot hidle d)
  · by_cases hdc : d = c
    · subst hdc
      show update s.suspended d (some a) d = some b ↔ _
      rw [update_self, hc]
      exact iff_of_false (fun heq => hb (Option.some.inj heq).symm) (Option.some_ne_none b).symm
    · show update s.suspended c (some a) d = some b ↔ _
      rw [update_of_ne hdc]
  · obtain ⟨n, hn⟩ := hi.bounded
    refine ⟨max n (c + 1), fun d hd => ?_⟩
    have hdc : d ≠ c := Nat.ne_of_gt (Nat.lt_of_succ_le ((le_max_right _ _).trans hd))
    exact (update_of_ne hdc _ _).trans (hn d ((le_max_left _ _).trans hd))

theorem Inv.expire (hi : Inv s) (hh : s.timers h = some tm) (hset : tm.phase = .set) :
    Inv { s with timers := update s.timers h (some { tm with phase := .queued }) } := by
  obtain ⟨-, x, hslot⟩ := hi.owner h tm hh
  have hphase : tm.phase ≠ .idle := by
    rw [hset]
    decide
  obtain ⟨c, hx, hc, htimeout⟩ := hi.pending _ x h tm hslot hphase
  refine hi.replace (y := x) (m := { tm with phase := .queued })
    ⟨hslot.object, hslot.handle, update_self _ _ _, rfl⟩ (fun _ _ => rfl)
    (fun k hk => update_of_ne hk _ _) (fun _ _ => hi.handle_eq hslot) (fun km hk => ?_)
    (by rintro ⟨⟩) (fun _ => ⟨c, hx, hc, htimeout⟩) (fun d hd => ⟨by rintro ⟨⟩, ?_⟩)
    (fun _ _ _ => Iff.rfl) hi.valid rfl hi.bounded
  · obtain rfl : tm = km := Option.some.inj (hh.symm.trans hk)
    rfl
  · obtain ⟨y, k, km, hother, -, hy⟩ := hi.waits d tm.ctx hd
    obtain ⟨rfl, -, -⟩ := hslot.unique hother
    exact hy

/-- The callback of a pending timer resumes the coroutine that waits for it. -/
theorem onTimerExpiration_eq {c : ℕ} (hx : s.objects a = some x) (hc : x.awaitingCoro = some c)
    (hsuspended : s.suspended c = some a) :
    s.onTimerExpiration a =
      { s with suspended := update s.suspended c none, resumed := s.resumed ++ [c] } := by
  rw [State.onTimerExpiration, hx, Option.bind_some, hc]
  exact if_pos (hsuspended ▸ rfl)

theorem Inv.callback (hi : Inv s) (hh : s.timers h = some tm) (hqueued : tm.phase = .queued) :
    Inv (State.onTimerExpiration
      { s with timers := update s.timers h (some { tm with phase := .idle }) } tm.ctx) := by
  obtain ⟨-, x, hslot⟩ := hi.owner h tm hh
  have hphase : tm.phase ≠ .idle := by
    rw [hqueued]
    decide
  obtain ⟨c, hx, hc, -⟩ := hi.pending _ x h tm hslot hphase
  rw [onTimerExpiration_eq
    (s := { s with timers := update s.timers h (some { tm with phase := .idle }) })
    hslot.object hx hc]
  refine hi.replace (y := x) (m := { tm with phase := .idle })
    ⟨hslot.object, hslot.handle, update_self _ _ _, rfl⟩ (fun _ _ => rfl)
    (fun k hk => update_of_ne hk _ _) (fun _ _ => hi.handle_eq hslot) (fun km hk => ?_)
    (by rintro ⟨⟩) (fun hnot => absurd rfl hnot) (fun d hd => ?_) (fun d b hb => ?_) hi.valid rfl ?_
  · obtain rfl : tm = km := Option.some.inj (hh.symm.trans hk)
    rfl
  · exfalso
    by_cases hdc : d = c
    · subst hdc
      exact Option.some_ne_none _ (hd.symm.trans (update_self _ _ _))
    · obtain ⟨y, k, km, hother, -, hy⟩ := hi.waits d tm.ctx ((update_of_ne hdc _ _).symm.trans hd)
      obtain ⟨rfl, -, -⟩ := hslot.unique hother
      exact hdc (Option.some.inj (hy.symm.trans hx))
  · by_cases hdc : d = c
    · subst hdc
      show update s.suspended d none d = some b ↔ _
      rw [update_self, hc]
      exact iff_of_false (Option.some_ne_none b).symm fun heq => hb (Option.some.inj heq).symm
    · show update s.suspended c none d = some b ↔ _
      rw [update_of_ne hdc]
  · obtain ⟨n, hn⟩ := hi.bounded
    refine ⟨n, fun d hd => ?_⟩
    by_cases hdc : d = c
    · rw [hdc]
      exact update_self _ _ _
    · exact (update_of_ne hdc _ _).trans (hn d hd)

theorem closeTimer_eq (hslot : s.Slot a x h tm) :
    s.closeTimer x.timer =
      { s with
        timers := update s.timers h
          (if tm.phase = .queued then some { tm with phase := .closing } else none) } := by
  rw [hslot.handle, State.closeTimer, hslot.timer, Option.bind_some]

theorem Inv.destroy (hi : Inv s) (hslot : s.Slot a x h tm) (hidle : tm.phase = .idle) :
    Inv { s.closeTimer x.timer with objects := update s.objects a none } := by
  have hnot : tm.phase ≠ .queued := by
    rw [hidle]
    decide
  rw [closeTimer_eq hslot, if_neg hnot]
  refine hi.change (h := h) (a := a) (fun b hb => update_of_ne hb _ _)
    (fun k hk => update_of_ne hk _ _) (fun _ _ => hi.handle_eq hslot) (fun km hk => ?_)
    (fun y hy => ?_) (fun km hk => ?_) (fun y km hother => ?_)
    (fun c hc => absurd hc (hi.not_busy_of_idle hslot hidle c)) (fun _ _ _ => Iff.rfl) hi.valid rfl
    hi.bounded
  · obtain rfl : tm = km := Option.some.inj (hslot.timer.symm.trans hk)
    exact hslot.ctx
  · exact absurd (hy.symm.trans (update_self _ _ _)) (Option.some_ne_none y)
  · exact absurd (hk.symm.trans (update_self _ _ _)) (Option.some_ne_none km)
  · exact absurd (hother.object.symm.trans (update_self _ _ _)) (Option.some_ne_none y)

theorem step_inv {act : Act} (hi : Inv s) (hok : InPlace s act) (hs : step s act = some t) :
    Inv t := by
  cases act with
  | construct a ioc timeout timer =>
      cases timer with
      | none =>
          rw [← Option.some.inj hs]
          exact hi
      | some h =>
          obtain ⟨⟨ha, hh⟩, heq⟩ := Option.ite_none_right_eq_some.mp hs
          rw [← Option.some.inj heq]
          exact hi.construct ha hh
  | moveConstruct dst src => exact hok.elim
  | moveAssign dst src =>
      obtain ⟨d, -, hrest⟩ := Option.bind_eq_some_iff.mp hs
      obtain ⟨x, -, heq⟩ := Option.bind_eq_some_iff.mp hrest
      have hsame : dst = src := hok
      rw [if_pos hsame] at heq
      rw [← Option.some.inj heq]
      exact hi
  | destroy a =>
      obtain ⟨x, hx, heq⟩ := Option.bind_eq_some_iff.mp hs
      obtain ⟨h, tm, hslot⟩ := hi.own a x hx
      rw [← Option.some.inj heq]
      exact hi.destroy hslot (hslot.idle (hok x hx))
  | await a c =>
      obtain ⟨x, hx, hrest⟩ := Option.bind_eq_some_iff.mp hs
      obtain ⟨hc, heq⟩ := Option.ite_none_right_eq_some.mp hrest
      obtain ⟨h, tm, hslot⟩ := hi.own a x hx
      rw [← Option.some.inj heq]
      exact hi.await hslot (hslot.idle (hok x hx)) hc
  | expire h =>
      obtain ⟨tm, hh, hrest⟩ := Option.bind_eq_some_iff.mp hs
      obtain ⟨hset, heq⟩ := Option.ite_none_right_eq_some.mp hrest
      rw [← Option.some.inj heq]
      exact hi.expire hh hset
  | callback h =>
      obtain ⟨tm, hh, hrest⟩ := Option.bind_eq_some_iff.mp hs
      cases hphase : tm.phase with
      | queued =>
          rw [hphase] at hrest
          rw [← Option.some.inj hrest]
          exact hi.callback hh hphase
      | closing => exact absurd hphase (hi.owner h tm hh).1
      | idle =>
          rw [hphase] at hrest
          cases hrest
      | set =>
          rw [hphase] at hrest
          cases hrest

theorem reachable_inv (hs : system.ReachableUnder InPlace s) : Inv s := by
  apply hs.invariant
  · rintro _ rfl
    exact initial_inv
  · exact fun _ _ _ hi hok hs => step_inv hi hok hs

/-- The timer of a suspended coroutine expires, and its callback resumes the coroutine. -/
theorem Inv.can_resume (hi : Inv s) {c : ℕ} (hc : s.suspended c = some a) :
    ∃ acts t, system.run s acts = some t ∧ t.resumed = s.resumed ++ [c] := by
  obtain ⟨x, h, tm, hslot, hphase, hx⟩ := hi.waits c a hc
  have hresume : ∀ {u : State} {m : Timer}, u.objects = s.objects → u.suspended = s.suspended →
      u.resumed = s.resumed → u.timers h = some m → m.ctx = a → m.phase = .queued →
      ∃ t, system.run u [.callback h] = some t ∧ t.resumed = s.resumed ++ [c] := by
    intro u m hobjects hsuspended hresumed hm hctx hqueued
    have hobject : u.objects m.ctx = some x := by
      rw [hctx, hobjects]
      exact hslot.object
    have hwait : u.suspended c = some m.ctx := by
      rw [hctx, hsuspended]
      exact hc
    have hstep : step u (.callback h) =
        some (State.onTimerExpiration
          { u with timers := update u.timers h (some { m with phase := .idle }) } m.ctx) := by
      refine Option.bind_eq_some_iff.mpr ⟨m, hm, ?_⟩
      rw [hqueued]
    refine ⟨_, System.run_cons [] hstep, ?_⟩
    rw [onTimerExpiration_eq
      (s := { u with timers := update u.timers h (some { m with phase := .idle }) })
      hobject hx hwait]
    exact congrArg (· ++ [c]) hresumed
  cases hp : tm.phase with
  | idle => exact absurd hp hphase
  | closing => exact absurd hp (hi.owner h tm hslot.timer).1
  | queued =>
      obtain ⟨t, hrun, ht⟩ := hresume rfl rfl rfl hslot.timer hslot.ctx hp
      exact ⟨_, t, hrun, ht⟩
  | set =>
      have hexpire : step s (.expire h) =
          some { s with timers := update s.timers h (some { tm with phase := .queued }) } :=
        Option.bind_eq_some_iff.mpr ⟨tm, hslot.timer, if_pos hp⟩
      obtain ⟨t, hrun, ht⟩ := hresume
        (u := { s with timers := update s.timers h (some { tm with phase := .queued }) })
        rfl rfl rfl (update_self _ _ _) hslot.ctx rfl
      exact ⟨.expire h :: [.callback h], t, (System.run_cons _ hexpire).trans hrun, ht⟩

/-! ## A step against the condition -/

/-- A coroutine is left behind where the object it awaits, or its timer, changes. -/
theorem Inv.stranded (hi : Inv s) (hslot : s.Slot a x h tm) {c : ℕ} (hphase : tm.phase ≠ .idle)
    (hc : x.awaitingCoro = some c) (htimers : ∀ k, k ≠ h → t.timers k = s.timers k)
    (hobjects : ∀ b y, b ≠ a → t.objects b = some y →
      ∃ z, s.objects b = some z ∧ z.awaitingCoro = y.awaitingCoro)
    (hself : ∀ km y, t.timers h = some km → t.objects km.ctx = some y → y.awaitingCoro ≠ some c)
    (hsuspended : t.suspended c = some a) : ¬ t.Sound := by
  intro hsound
  obtain ⟨k, km, y, hk, hkm, hy, hyc⟩ := hsound.awaited c a hsuspended
  by_cases hkh : k = h
  · subst hkh
    exact hself km y hk hy hyc
  · rw [htimers k hkh] at hk
    have hother : km.ctx ≠ a := fun hctx => hkh (hi.handle_eq hslot hk hctx)
    obtain ⟨z, hz, hzy⟩ := hobjects _ y hother hy
    obtain ⟨-, z', hslot'⟩ := hi.owner k km hk
    obtain rfl : z' = z := Option.some.inj (hslot'.object.symm.trans hz)
    -- the other timer leads to a coroutine that waits for it
    obtain ⟨d, hd, hwait, -⟩ := hi.pending _ z' k km hslot' hkm
    obtain rfl : d = c := Option.some.inj (hd.symm.trans (hzy.trans hyc))
    obtain ⟨e, he, hmine, -⟩ := hi.pending a x h tm hslot hphase
    obtain rfl : e = d := Option.some.inj (he.symm.trans hc)
    exact hother (Option.some.inj (hwait.symm.trans hmine))

/-- An object is awaited whose timer was created for another. -/
theorem not_sound_of_await {k b c : ℕ} {y : Object} {km : Timer} (hy : s.objects b = some y)
    (hk : y.timer = some k) (hkm : s.timers k = some km) (hc : s.suspended c = none)
    (hfree : ∀ k' m z, s.timers k' = some m → k' = k ∨ m.phase ≠ .idle →
      m.ctx ≠ b ∧ (s.objects m.ctx = some z → z.awaitingCoro ≠ some c)) :
    ∃ t, system.run s [.await b c] = some t ∧ ¬ t.Sound := by
  have hstep : step s (.await b c) = some (s.awaitSuspend b c y) :=
    Option.bind_eq_some_iff.mpr ⟨y, hy, if_pos hc⟩
  refine ⟨_, System.run_cons [] hstep, fun hsound => ?_⟩
  rw [awaitSuspend_eq hk hkm] at hsound
  obtain ⟨k', m, z, hm, hphase, hz, hzc⟩ := hsound.awaited c b (update_self _ _ _)
  by_cases hkk : k' = k
  · subst hkk
    replace hm : update s.timers k' (some { km with phase := .set, timeout := y.timeout }) k' =
      some m := hm
    rw [update_self] at hm
    obtain rfl := Option.some.inj hm
    obtain ⟨hctx, hnot⟩ := hfree k' km z hkm (.inl rfl)
    exact hnot ((update_of_ne hctx _ _).symm.trans hz) hzc
  · obtain ⟨hctx, hnot⟩ := hfree k' m z ((update_of_ne hkk _ _).symm.trans hm) (.inr hphase)
    exact hnot ((update_of_ne hctx _ _).symm.trans hz) hzc

theorem Inv.fresh (hi : Inv s) (stale : Option ℕ) : ∃ c, s.suspended c = none ∧ stale ≠ some c := by
  obtain ⟨n, hn⟩ := hi.bounded
  cases stale with
  | none => exact ⟨n, hn n le_rfl, (Option.some_ne_none n).symm⟩
  | some d =>
      refine ⟨max n (d + 1), hn _ (le_max_left _ _), fun hd => ?_⟩
      have hlt : d + 1 ≤ max n (d + 1) := le_max_right _ _
      rw [← Option.some.inj hd] at hlt
      exact absurd hlt (Nat.not_succ_le_self d)

/-- The timer that an object took over does not lead to it. -/
theorem Inv.not_sound_of_moved (hi : Inv s) {dst src ioc k : ℕ} {x : Object} {km : Timer}
    (hslot : s.Slot src x k km) (ht : t.objects = (s.move dst src ioc x).objects)
    (hsuspended : t.suspended = s.suspended)
    (htimers : ∀ k' m, t.timers k' = some m → s.timers k' = some m ∧ m.ctx ≠ dst)
    (hkm : t.timers k = some km) :
    ∃ c u, system.run t [.await dst c] = some u ∧ ¬ u.Sound := by
  obtain ⟨c, hc, hstale⟩ := hi.fresh x.awaitingCoro
  have hdst : t.objects dst = some { x with ioc := ioc } := by
    rw [ht]
    exact update_self _ _ _
  refine ⟨c, not_sound_of_await hdst hslot.handle hkm (hsuspended ▸ hc) fun k' m z hm hor => ?_⟩
  obtain ⟨hold, hctx⟩ := htimers k' m hm
  obtain ⟨-, y, hother⟩ := hi.owner k' m hold
  refine ⟨hctx, fun hz => ?_⟩
  have hsame : z.awaitingCoro = y.awaitingCoro := by
    rw [ht] at hz
    replace hz := (update_of_ne hctx _ _).symm.trans hz
    by_cases hsrc : m.ctx = src
    · rw [hsrc] at hz hother
      obtain ⟨rfl, -, -⟩ := hslot.unique hother
      rw [update_self] at hz
      rw [← Option.some.inj hz]
    · rw [Option.some.inj (hother.object.symm.trans ((update_of_ne hsrc _ _).symm.trans hz))]
  rw [hsame]
  intro hyc
  rcases hor with rfl | hphase
  · obtain rfl : km = m := Option.some.inj (hkm.symm.trans hm)
    rw [hslot.ctx] at hother
    obtain ⟨rfl, -, -⟩ := hslot.unique hother
    exact hstale hyc
  · obtain ⟨d, hd, hwait, -⟩ := hi.pending _ y k' m hother hphase
    obtain rfl : d = c := Option.some.inj (hd.symm.trans hyc)
    exact Option.some_ne_none _ (hwait.symm.trans hc)

/-- No timer was created for an address where no object lives. -/
theorem Inv.ctx_ne (hi : Inv s) (ha : s.objects a = none) (hh : s.timers h = some tm) :
    tm.ctx ≠ a := by
  rintro rfl
  obtain ⟨-, y, hslot⟩ := hi.owner h tm hh
  exact Option.some_ne_none _ (hslot.object.symm.trans ha)

theorem Inv.breaks_destroy (hi : Inv s) (hx : s.objects a = some x) (hbusy : s.Busy x)
    (ht : { s.closeTimer x.timer with objects := update s.objects a none } = t) : ¬ t.Sound := by
  obtain ⟨h, tm, hslot⟩ := hi.own a x hx
  have hphase := hslot.busy hbusy
  obtain ⟨c, hc, hwait, -⟩ := hi.pending a x h tm hslot hphase
  rw [← ht, closeTimer_eq hslot]
  refine hi.stranded hslot hphase hc (fun k hk => update_of_ne hk _ _) (fun b y hb hy => ?_)
    (fun km y hk hy => ?_) hwait
  · exact ⟨y, (update_of_ne hb _ _).symm.trans hy, rfl⟩
  · -- the object is gone
    have hctx : km.ctx = a := by
      replace hk := (update_self h _ s.timers).symm.trans hk
      split at hk
      · exact (congrArg Timer.ctx (Option.some.inj hk)).symm.trans hslot.ctx
      · cases hk
    rw [hctx] at hy
    exact absurd (hy.symm.trans (update_self a none s.objects)) (Option.some_ne_none y)

theorem Inv.breaks_await (hi : Inv s) (hx : s.objects a = some x) (hbusy : s.Busy x) {c : ℕ}
    (hc : s.suspended c = none) : ¬ (s.awaitSuspend a c x).Sound := by
  obtain ⟨h, tm, hslot⟩ := hi.own a x hx
  have hphase := hslot.busy hbusy
  obtain ⟨d, hd, hwait, -⟩ := hi.pending a x h tm hslot hphase
  have hdc : d ≠ c := by
    rintro rfl
    exact Option.some_ne_none _ (hwait.symm.trans hc)
  rw [awaitSuspend_eq hslot.handle hslot.timer]
  refine hi.stranded hslot hphase hd (fun k hk => update_of_ne hk _ _) (fun b y hb hy => ?_)
    (fun km y hk hy => ?_) ((update_of_ne hdc _ _).trans hwait)
  · exact ⟨y, (update_of_ne hb _ _).symm.trans hy, rfl⟩
  · -- the object holds the coroutine that awaited it last
    have hctx : km.ctx = a := by
      replace hk := (update_self h _ s.timers).symm.trans hk
      exact (congrArg Timer.ctx (Option.some.inj hk)).symm.trans hslot.ctx
    rw [hctx] at hy
    replace hy := (update_self a _ s.objects).symm.trans hy
    rw [← Option.some.inj hy]
    exact fun heq => hdc (Option.some.inj heq).symm

theorem Inv.breaks_moveAssign (hi : Inv s) {dst src : ℕ} {d : Object}
    (hd : s.objects dst = some d) (hx : s.objects src = some x) (hne : dst ≠ src)
    (ht : { (s.closeTimer d.timer).move dst src d.ioc x with
      contexts := update s.contexts d.ioc (s.contexts x.ioc) } = t) :
    ∃ acts u, system.run t acts = some u ∧ ¬ u.Sound := by
  obtain ⟨h, tm, hmine⟩ := hi.own dst d hd
  obtain ⟨k, km, hslot⟩ := hi.own src x hx
  have hkh : k ≠ h := by
    rintro rfl
    obtain rfl : tm = km := Option.some.inj (hmine.timer.symm.trans hslot.timer)
    exact hne (hmine.ctx.symm.trans hslot.ctx)
  rw [closeTimer_eq hmine] at ht
  cases hphase : tm.phase with
  | closing => exact absurd hphase (hi.owner h tm hmine.timer).1
  | queued =>
      -- the callback runs after the timer is closed
      rw [if_pos hphase] at ht
      refine ⟨[], t, rfl, fun hsound => hsound.closed h { tm with phase := .closing } ?_ rfl⟩
      rw [← ht]
      exact update_self _ _ _
  | set =>
      have hbusy : tm.phase ≠ .idle := by
        rw [hphase]
        decide
      obtain ⟨c, hc, hwait, -⟩ := hi.pending dst d h tm hmine hbusy
      rw [if_neg (by rw [hphase]; decide)] at ht
      refine ⟨[], t, rfl, ?_⟩
      rw [← ht]
      refine hi.stranded hmine hbusy hc (fun j hj => update_of_ne hj _ _) (fun b y hb hy => ?_)
        (fun m y hm _ => ?_) hwait
      · replace hy := (update_of_ne hb _ _).symm.trans hy
        by_cases hsrc : b = src
        · subst hsrc
          rw [update_self] at hy
          exact ⟨x, hx, by rw [← Option.some.inj hy]⟩
        · exact ⟨y, (update_of_ne hsrc _ _).symm.trans hy, rfl⟩
      · replace hm : update s.timers h none h = some m := hm
        rw [update_self] at hm
        cases hm
  | idle =>
      rw [if_neg (by rw [hphase]; decide)] at ht
      have htimers : t.timers = update s.timers h none := by
        rw [← ht]
        rfl
      have hobjects : t.objects = (s.move dst src d.ioc x).objects := by
        rw [← ht]
        rfl
      obtain ⟨c, u, hrun, hu⟩ : ∃ c u, system.run t [.await dst c] = some u ∧ ¬ u.Sound := by
        refine hi.not_sound_of_moved hslot hobjects ?_ (fun j m hm => ?_) ?_
        · rw [← ht]
          rfl
        · rw [htimers] at hm
          by_cases hj : j = h
          · rw [hj, update_self] at hm
            cases hm
          · rw [update_of_ne hj] at hm
            exact ⟨hm, fun hctx => hj (hi.handle_eq hmine hm hctx)⟩
        · rw [htimers, update_of_ne hkh]
          exact hslot.timer
      exact ⟨_, u, hrun, hu⟩

end

/-- **Where the timers of a pool keep their promise**: in every run where a timer is neither moved
nor destroyed while it is set, and is awaited by one coroutine at a time, the callback of its timer
resumes each suspended coroutine, and no callback does anything else. After a step against this,
also a move of a timer that nobody awaits, there is a run to a state in which that fails. -/
theorem sound_iff_inPlace :
    (∀ s, system.ReachableUnder InPlace s → s.Sound ∧ ∀ c a, s.suspended c = some a →
      ∃ acts t, system.run s acts = some t ∧ t.resumed = s.resumed ++ [c]) ∧
    system.Breaks InPlace State.Sound := by
  refine ⟨fun s hs => ⟨(reachable_inv hs).sound, fun c a => (reachable_inv hs).can_resume⟩,
    fun s act t hs hstep hbad => ?_⟩
  have hi := reachable_inv hs
  cases act with
  | construct a ioc timeout timer => exact absurd trivial hbad
  | expire h => exact absurd trivial hbad
  | callback h => exact absurd trivial hbad
  | destroy a =>
      obtain ⟨y, hy⟩ := not_forall.mp hbad
      obtain ⟨hy, hbusy⟩ := Classical.not_imp.mp hy
      obtain ⟨x, hx, heq⟩ := Option.bind_eq_some_iff.mp hstep
      obtain rfl : y = x := Option.some.inj (hy.symm.trans hx)
      exact ⟨[], t, rfl, hi.breaks_destroy hy (not_not.mp hbusy) (Option.some.inj heq)⟩
  | await a c =>
      obtain ⟨y, hy⟩ := not_forall.mp hbad
      obtain ⟨hy, hbusy⟩ := Classical.not_imp.mp hy
      obtain ⟨x, hx, hrest⟩ := Option.bind_eq_some_iff.mp hstep
      obtain ⟨hc, heq⟩ := Option.ite_none_right_eq_some.mp hrest
      obtain rfl : y = x := Option.some.inj (hy.symm.trans hx)
      rw [← Option.some.inj heq]
      exact ⟨[], _, rfl, hi.breaks_await hy (not_not.mp hbusy) hc⟩
  | moveConstruct dst src =>
      obtain ⟨x, hx, hrest⟩ := Option.bind_eq_some_iff.mp hstep
      obtain ⟨hdst, heq⟩ := Option.ite_none_right_eq_some.mp hrest
      obtain ⟨k, km, hslot⟩ := hi.own src x hx
      rw [← Option.some.inj heq]
      obtain ⟨c, u, hrun, hu⟩ := hi.not_sound_of_moved (t := s.move dst src x.ioc x) hslot rfl
        rfl (fun k' m hm => ⟨hm, hi.ctx_ne hdst hm⟩) hslot.timer
      exact ⟨_, u, hrun, hu⟩
  | moveAssign dst src =>
      obtain ⟨d, hd, hrest⟩ := Option.bind_eq_some_iff.mp hstep
      obtain ⟨x, hx, heq⟩ := Option.bind_eq_some_iff.mp hrest
      have hne : dst ≠ src := hbad
      rw [if_neg hne] at heq
      exact hi.breaks_moveAssign hd hx hne (Option.some.inj heq)

/-- Two timers that stay in place: the coroutine that still waits can be resumed. -/
theorem sound_iff_inPlace_two_timers :
    ∃ s, system.run initial [.construct 0 3 TimerService.shortTimeout (some 4),
      .construct 1 3 TimerService.shortTimeout (some 5), .await 0 7, .await 1 8, .expire 5,
      .callback 5] = some s ∧ s.resumed = [8] ∧ s.Sound ∧
      ∃ acts t, system.run s acts = some t ∧ t.resumed = s.resumed ++ [7] := by
  have hmeets : system.Meets InPlace initial [.construct 0 3 TimerService.shortTimeout (some 4),
      .construct 1 3 TimerService.shortTimeout (some 5), .await 0 7, .await 1 8, .expire 5,
      .callback 5] := by
    refine ⟨trivial, _, rfl, trivial, _, rfl, ?_, _, rfl, ?_, _, rfl, trivial, _, rfl, trivial,
      _, rfl, trivial⟩
    · rintro x hx ⟨h, tm, hh, htm, hbusy⟩
      cases hx
      cases hh
      cases htm
      exact hbusy rfl
    · rintro x hx ⟨h, tm, hh, htm, hbusy⟩
      cases hx
      cases hh
      cases htm
      exact hbusy rfl
  have hreach := System.ReachableUnder.run (.init rfl) hmeets rfl
  obtain ⟨hsound, hresume⟩ := sound_iff_inPlace.1 _ hreach
  exact ⟨_, rfl, rfl, hsound, hresume 7 0 rfl⟩

/-- A timer is moved and then awaited: the callback reads the coroutine from where it was. -/
example : ((system.run initial [.construct 0 3 TimerService.shortTimeout (some 4),
    .moveConstruct 1 0, .await 1 7, .expire 4, .callback 4]).map
      fun s => (s.suspended 7, s.resumed, s.fault)) = some (some 1, [], true) := by decide

end Coroutines.AwaitableTimer.Threadpool
