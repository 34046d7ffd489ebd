import Coroutines.Lib.Transition
import Mathlib.Algebra.Order.Ring.Int
import Mathlib.Data.List.Nodup
import Mathlib.Logic.Function.Basic

/-!
# Awaitable timers on a kqueue

`applications/timers/osx-kqueue/awaitable_timer.hpp`. A timer is a pair of a kqueue and an
identifier that its owner chooses. To await it stores the awaiting coroutine in the object and
adds a one-shot event, which replaces the event with that identifier if there is one. The
event points to the object, and the reactor resumes the coroutine it finds there.
-/

namespace Coroutines.AwaitableTimer.Kqueue

open Transition Function

/-! ## The model -/

/-- A timer event of a kqueue. -/
structure Event where
  /-- In microseconds. -/
  data : ℤ
  /-- The object whose `async_ctx` it points to. -/
  udata : ℕ
  /-- The time is up, and the event has not been returned. -/
  fired : Bool

/-- `awaitable_timer`. -/
structure Object where
  ioc : ℤ
  ident : ℕ
  timeout : ℤ
  /-- `async_ctx.awaiting_coro`. -/
  awaitingCoro : Option ℕ

structure State where
  /-- The object at an address, if one lives there. -/
  objects : ℕ → Option Object
  /-- The event of a kqueue with an identifier. -/
  events : ℤ × ℕ → Option Event
  /-- The coroutines that are suspended at a `co_await` of a timer. -/
  suspended : List ℕ
  /-- History: the coroutines that were resumed, and whether something was resumed that was not
  suspended. -/
  resumed : List ℕ
  fault : Bool

def initial : State where
  objects := fun _ => none
  events := fun _ => none
  suspended := []
  resumed := []
  fault := false

inductive Act
  | construct (a : ℕ) (ioc : ℤ) (ident : ℕ) (nanoseconds : ℤ)
  | destroy (a : ℕ)
  /-- `co_await`, by a coroutine that runs; `kevent` may fail. -/
  | await (a c : ℕ) (accepted : Bool)
  | expire (ioc : ℤ) (ident : ℕ)
  /-- The reactor is given the event. -/
  | react (ioc : ℤ) (ident : ℕ)

/-- `arm_timer`, if `kevent` accepts: the coroutine stays suspended. -/
def State.arm (s : State) (a c : ℕ) (me : Object) : State :=
  { s with
    events := update s.events (me.ioc, me.ident) (some ⟨me.timeout, a, false⟩)
    suspended := c :: s.suspended }

/-- `await_suspend`. -/
def State.awaitSuspend (s : State) (a c : ℕ) (me : Object) (accepted : Bool) : State :=
  let s := { s with objects := update s.objects a (some { me with awaitingCoro := some c }) }
  if accepted then s.arm a c me else s

/-- `on_timer_expiration`. -/
def State.onTimerExpiration (s : State) (ctx : ℕ) : State :=
  match (s.objects ctx).bind Object.awaitingCoro with
  | some c =>
      if c ∈ s.suspended then
        { s with suspended := s.suspended.erase c, resumed := s.resumed ++ [c] }
      else { s with fault := true }
  | none => { s with fault := true }

def step (s : State) : Act → Option State
  | .construct a ioc ident nanoseconds =>
      -- `duration_cast` drops what is less than a microsecond
      let x : Object := ⟨ioc, ident, nanoseconds.tdiv 1000, none⟩
      if s.objects a = none then some { s with objects := update s.objects a (some x) } else none
  | .destroy a => do
      let _ ← s.objects a
      some { s with objects := update s.objects a none }
  | .await a c accepted => do
      let me ← s.objects a
      if c ∈ s.suspended then none else some (s.awaitSuspend a c me accepted)
  | .expire ioc ident => do
      let e ← s.events (ioc, ident)
      if e.fired then none
      else some { s with events := update s.events (ioc, ident) (some { e with fired := true }) }
  | .react ioc ident => do
      let e ← s.events (ioc, ident)
      if e.fired then
        some ({ s with events := update s.events (ioc, ident) none }.onTimerExpiration e.udata)
      else none

def system : System State Act where
  Init s := s = initial
  step := step

/-- The event of a timer points to the object. -/
def State.Armed (s : State) (a : ℕ) (x : Object) : Prop :=
  s.objects a = some x ∧ ∃ e, s.events (x.ioc, x.ident) = some e ∧ e.udata = a ∧
    e.data = x.timeout

/-- What the timers promise: every coroutine that is suspended has an event that will resume
it, and nothing else is resumed. -/
structure State.Sound (s : State) : Prop where
  awaited : ∀ c ∈ s.suspended, ∃ a x, s.Armed a x ∧ x.awaitingCoro = some c
  resumed : s.fault = false

/-- A timer is awaited when no event has its identifier, and one that is awaited is not
destroyed. -/
def Distinct (s : State) : Act → Prop
  | .destroy a => ∀ x, ¬ s.Armed a x
  | .await a _ accepted => ∀ x, s.objects a = some x →
      (accepted = true → s.events (x.ioc, x.ident) = none) ∧ ¬ s.Armed a x
  | _ => True

/-! ## The events and the suspended coroutines -/

structure Inv (s : State) : Prop extends s.Sound where
  /-- Every event leads to a coroutine that is suspended. -/
  leads : ∀ key e, s.events key = some e → ∃ x c, s.Armed e.udata x ∧ (x.ioc, x.ident) = key ∧
    x.awaitingCoro = some c ∧ c ∈ s.suspended
  unique : ∀ a b x y c, s.Armed a x → s.Armed b y → x.awaitingCoro = some c →
    y.awaitingCoro = some c → a = b
  nodup : s.suspended.Nodup

theorem initial_inv : Inv initial where
  awaited _ hc := (List.not_mem_nil hc).elim
  resumed := rfl
  leads _ _ he := by cases he
  unique _ _ _ _ _ ha := by cases ha.1
  nodup := List.nodup_nil

section
variable {s t : State} {a : ℕ}

/-- An object that no event points to comes, goes or changes. -/
theorem State.Armed.of_objects (hobjects : ∀ b, b ≠ a → t.objects b = s.objects b)
    (hevents : t.events = s.events) {b : ℕ} {x : Object} (hba : b ≠ a) :
    t.Armed b x ↔ s.Armed b x := by
  rw [State.Armed, State.Armed, hobjects b hba, hevents]

theorem Inv.replace (h : Inv s) (hfree : ∀ x, ¬ s.Armed a x)
    (hobjects : ∀ b, b ≠ a → t.objects b = s.objects b) (hevents : t.events = s.events)
    (hsuspended : t.suspended = s.suspended) (hfault : t.fault = s.fault) : Inv t := by
  have hkeep : ∀ {b x}, s.Armed b x → b ≠ a := by
    rintro b x harmed rfl
    exact hfree x harmed
  have hback : ∀ {b x}, t.Armed b x → b ≠ a := by
    rintro b x ⟨-, e, he, rfl, -⟩ rfl
    rw [hevents] at he
    obtain ⟨y, -, harmed, -⟩ := h.leads _ e he
    exact hfree y harmed
  have hiff : ∀ {b x}, b ≠ a → (t.Armed b x ↔ s.Armed b x) := fun hba =>
    State.Armed.of_objects hobjects hevents hba
  refine ⟨⟨?_, hfault.trans h.resumed⟩, ?_, ?_, ?_⟩
  · intro c hc
    rw [hsuspended] at hc
    obtain ⟨b, x, harmed, hx⟩ := h.awaited c hc
    exact ⟨b, x, (hiff (hkeep harmed)).mpr harmed, hx⟩
  · intro key e he
    rw [hevents] at he
    obtain ⟨x, c, harmed, hkey, hx, hc⟩ := h.leads key e he
    refine ⟨x, c, (hiff (hkeep harmed)).mpr harmed, hkey, hx, ?_⟩
    rw [hsuspended]
    exact hc
  · intro b b' x y c hb hb' hx hy
    exact h.unique b b' x y c ((hiff (hback hb)).mp hb) ((hiff (hback hb')).mp hb') hx hy
  · rw [hsuspended]
    exact h.nodup

/-- Nothing else is armed by an await. -/
theorem State.armed_awaitSuspend {c : ℕ} {me : Object} {b : ℕ} {x : Object}
    (harmed : (s.awaitSuspend a c me true).Armed b x) :
    b = a ∧ x.awaitingCoro = some c ∨ b ≠ a ∧ s.Armed b x := by
  obtain ⟨t, ht⟩ : ∃ t, t = s.awaitSuspend a c me true := ⟨_, rfl⟩
  have hobjects : t.objects = update s.objects a (some { me with awaitingCoro := some c }) := by
    rw [ht]
    rfl
  have hevents : t.events = update s.events (me.ioc, me.ident) (some ⟨me.timeout, a, false⟩) := by
    rw [ht]
    rfl
  rw [← ht] at harmed
  obtain ⟨hb, e, he, hudata, hdata⟩ := harmed
  by_cases hba : b = a
  · rw [hba, hobjects, update_self] at hb
    exact .inl ⟨hba, (Option.some.inj hb) ▸ rfl⟩
  · rw [hobjects, update_of_ne hba] at hb
    have hkey : (x.ioc, x.ident) ≠ (me.ioc, me.ident) := by
      intro heq
      rw [heq, hevents, update_self] at he
      exact hba (hudata.symm.trans (Option.some.inj he ▸ rfl))
    rw [hevents, update_of_ne hkey] at he
    exact .inr ⟨hba, hb, e, he, hudata, hdata⟩

/-- What was armed stays so, if the identifier is free. -/
theorem State.Armed.awaitSuspend {c b : ℕ} {me x : Object} (harmed : s.Armed b x)
    (hme : s.objects a = some me) (hfree : s.events (me.ioc, me.ident) = none) :
    (s.awaitSuspend a c me true).Armed b x := by
  obtain ⟨hb, e, he, hudata, hdata⟩ := harmed
  have hkey : (x.ioc, x.ident) ≠ (me.ioc, me.ident) := by
    intro heq
    rw [heq, hfree] at he
    cases he
  have hba : b ≠ a := by
    rintro rfl
    obtain rfl : me = x := Option.some.inj (hme.symm.trans hb)
    exact hkey rfl
  exact ⟨(update_of_ne hba _ _).trans hb, e, (update_of_ne hkey _ _).trans he, hudata, hdata⟩

theorem State.armed_awaitSuspend_self (s : State) (a c : ℕ) (me : Object) :
    (s.awaitSuspend a c me true).Armed a { me with awaitingCoro := some c } :=
  ⟨update_self _ _ _, ⟨me.timeout, a, false⟩, update_self _ _ _, rfl, rfl⟩

/-- An armed timer holds a coroutine that is suspended. -/
theorem Inv.asleep (h : Inv s) {x : Object} {d : ℕ} (harmed : s.Armed a x)
    (hd : x.awaitingCoro = some d) : d ∈ s.suspended := by
  obtain ⟨hx, e, he, rfl, -⟩ := harmed
  obtain ⟨y, d', ⟨hy, -⟩, -, hd', hmem⟩ := h.leads _ e he
  obtain rfl : x = y := Option.some.inj (hx.symm.trans hy)
  obtain rfl : d = d' := Option.some.inj (hd.symm.trans hd')
  exact hmem

/-- A timer is armed: its identifier is free, and the coroutine runs. -/
theorem Inv.arm (h : Inv s) {c : ℕ} {me : Object} (hme : s.objects a = some me)
    (hfree : s.events (me.ioc, me.ident) = none) (hc : c ∉ s.suspended) :
    Inv (s.awaitSuspend a c me true) := by
  have hself := s.armed_awaitSuspend_self a c me
  refine ⟨⟨fun d hd => ?_, h.resumed⟩, fun key e he => ?_, fun b b' x y d hb hb' hx hy => ?_, ?_⟩
  · rcases List.mem_cons.mp hd with rfl | hd
    · exact ⟨a, _, hself, rfl⟩
    · obtain ⟨b, x, harmed, hx⟩ := h.awaited d hd
      exact ⟨b, x, harmed.awaitSuspend hme hfree, hx⟩
  · replace he : update s.events (me.ioc, me.ident) (some ⟨me.timeout, a, false⟩) key = some e := he
    by_cases hkey : key = (me.ioc, me.ident)
    · rw [hkey, update_self] at he
      obtain rfl : ⟨me.timeout, a, false⟩ = e := Option.some.inj he
      exact ⟨_, c, hself, hkey.symm, rfl, List.mem_cons_self⟩
    · rw [update_of_ne hkey] at he
      obtain ⟨x, d, harmed, hx, hd, hmem⟩ := h.leads key e he
      exact ⟨x, d, harmed.awaitSuspend hme hfree, hx, hd, List.mem_cons_of_mem c hmem⟩
  · rcases State.armed_awaitSuspend hb with ⟨rfl, hcx⟩ | ⟨-, hold⟩
    · rcases State.armed_awaitSuspend hb' with ⟨rfl, -⟩ | ⟨-, hold'⟩
      · rfl
      · obtain rfl : c = d := Option.some.inj (hcx.symm.trans hx)
        exact absurd (h.asleep hold' hy) hc
    · rcases State.armed_awaitSuspend hb' with ⟨rfl, hcy⟩ | ⟨-, hold'⟩
      · obtain rfl : c = d := Option.some.inj (hcy.symm.trans hy)
        exact absurd (h.asleep hold hx) hc
      · exact h.unique b b' x y d hold hold' hx hy
  · exact List.nodup_cons.mpr ⟨hc, h.nodup⟩

/-- The time of an event is up. -/
theorem Inv.expire (h : Inv s) {key : ℤ × ℕ} {e : Event} (he : s.events key = some e) :
    Inv { s with events := update s.events key (some { e with fired := true }) } := by
  obtain ⟨t, ht⟩ : ∃ t, t = { s with
    events := update s.events key (some { e with fired := true }) } := ⟨_, rfl⟩
  rw [← ht]
  have hevents : t.events = update s.events key (some { e with fired := true }) := by rw [ht]
  have hiff : ∀ {b x}, t.Armed b x ↔ s.Armed b x := by
    intro b x
    rw [State.Armed, State.Armed, hevents, ht]
    refine and_congr_right fun _ => ?_
    by_cases hkey : (x.ioc, x.ident) = key
    · rw [hkey, update_self, he]
      constructor
      · rintro ⟨_, ⟨⟩, hudata, hdata⟩
        exact ⟨e, rfl, hudata, hdata⟩
      · rintro ⟨_, ⟨⟩, hudata, hdata⟩
        exact ⟨{ e with fired := true }, rfl, hudata, hdata⟩
    · rw [update_of_ne hkey]
  have hsame : ∀ {key' e'}, t.events key' = some e' →
      ∃ e₀, s.events key' = some e₀ ∧ e₀.udata = e'.udata := by
    intro key' e' he'
    by_cases hkey : key' = key
    · rw [hkey, hevents, update_self] at he'
      cases he'
      exact ⟨e, hkey ▸ he, rfl⟩
    · rw [hevents, update_of_ne hkey] at he'
      exact ⟨e', he', rfl⟩
  refine ⟨⟨fun c hc => ?_, ?_⟩, fun key' e' he' => ?_, fun b b' x y c hb hb' => ?_, ?_⟩
  · rw [ht] at hc
    obtain ⟨a, x, harmed, hx⟩ := h.awaited c hc
    exact ⟨a, x, hiff.mpr harmed, hx⟩
  · rw [ht]
    exact h.resumed
  · obtain ⟨e₀, he₀, hudata⟩ := hsame he'
    obtain ⟨x, c, harmed, hx, hcx, hc⟩ := h.leads key' e₀ he₀
    rw [hudata] at harmed
    refine ⟨x, c, hiff.mpr harmed, hx, hcx, ?_⟩
    rw [ht]
    exact hc
  · exact h.unique b b' x y c (hiff.mp hb) (hiff.mp hb')
  · rw [ht]
    exact h.nodup

/-- What the reactor does with an event that leads to a suspended coroutine. -/
theorem onTimerExpiration_eq {x : Object} {c : ℕ} (hx : s.objects a = some x)
    (hc : x.awaitingCoro = some c) (hmem : c ∈ s.suspended) :
    s.onTimerExpiration a =
      { s with suspended := s.suspended.erase c, resumed := s.resumed ++ [c] } := by
  rw [State.onTimerExpiration, hx, Option.bind_some, hc]
  exact if_pos hmem

/-- The reactor takes an event and resumes the coroutine it leads to. -/
theorem Inv.react (h : Inv s) {key : ℤ × ℕ} {e : Event} (he : s.events key = some e) :
    Inv (State.onTimerExpiration { s with events := update s.events key none } e.udata) := by
  obtain ⟨x, c, harmed, hkey, hcx, hc⟩ := h.leads key e he
  rw [onTimerExpiration_eq (s := { s with events := update s.events key none }) harmed.1 hcx hc]
  obtain ⟨t, ht⟩ : ∃ t, t = { s with
    events := update s.events key none
    suspended := s.suspended.erase c
    resumed := s.resumed ++ [c] } := ⟨_, rfl⟩
  rw [← ht]
  have hevents : t.events = update s.events key none := by rw [ht]
  have hold : ∀ {b y}, t.Armed b y → s.Armed b y := by
    rintro b y ⟨hb, e', he', hudata, hdata⟩
    rw [ht] at hb
    have hne : (y.ioc, y.ident) ≠ key := by
      intro heq
      rw [heq, hevents, update_self] at he'
      cases he'
    rw [hevents, update_of_ne hne] at he'
    exact ⟨hb, e', he', hudata, hdata⟩
  have hnew : ∀ {b y d}, s.Armed b y → y.awaitingCoro = some d → d ≠ c → t.Armed b y := by
    rintro b y d ⟨hb, e', he', hudata, hdata⟩ hd hdc
    have hne : (y.ioc, y.ident) ≠ key := by
      intro heq
      rw [heq, he] at he'
      cases he'
      -- it is the event that is taken, which leads to `c`
      obtain rfl : x = y := Option.some.inj (harmed.1.symm.trans (hudata ▸ hb))
      exact hdc (Option.some.inj (hd.symm.trans hcx))
    refine ⟨by rw [ht]; exact hb, e', ?_, hudata, hdata⟩
    rw [hevents, update_of_ne hne, he']
  refine ⟨⟨fun d hd => ?_, ?_⟩, fun key' e' he' => ?_, fun b b' y y' d hb hb' => ?_, ?_⟩
  · rw [ht] at hd
    obtain ⟨hdc, hd⟩ := (h.nodup.mem_erase_iff).mp hd
    obtain ⟨b, y, hb, hy⟩ := h.awaited d hd
    exact ⟨b, y, hnew hb hy hdc, hy⟩
  · rw [ht]
    exact h.resumed
  · have hne : key' ≠ key := by
      rintro rfl
      rw [hevents, update_self] at he'
      cases he'
    rw [hevents, update_of_ne hne] at he'
    obtain ⟨y, d, hb, hkey', hy, hd⟩ := h.leads key' e' he'
    have hdc : d ≠ c := by
      rintro rfl
      have hsame := h.unique _ _ _ _ d hb harmed hy hcx
      obtain rfl : y = x := Option.some.inj (hb.1.symm.trans (hsame ▸ harmed.1))
      exact hne (hkey'.symm.trans hkey)
    refine ⟨y, d, hnew hb hy hdc, hkey', hy, ?_⟩
    rw [ht]
    exact (h.nodup.mem_erase_iff).mpr ⟨hdc, hd⟩
  · exact h.unique b b' y y' d (hold hb) (hold hb')
  · rw [ht]
    exact h.nodup.erase c

end

/-! ## Every run -/

/-- **What a step keeps**, if it meets the condition. -/
theorem step_inv {s t : State} {act : Act} (h : Inv s) (hok : Distinct s act)
    (hs : step s act = some t) : Inv t := by
  cases act with
  | construct a ioc ident nanoseconds =>
      obtain ⟨hnone, heq⟩ := Option.ite_none_right_eq_some.mp hs
      rw [← Option.some.inj heq]
      refine h.replace (a := a) ?_ (fun b hba => update_of_ne hba _ _) rfl rfl rfl
      rintro x ⟨hx, -⟩
      rw [hnone] at hx
      cases hx
  | destroy a =>
      obtain ⟨x, -, heq⟩ := Option.bind_eq_some_iff.mp hs
      rw [← Option.some.inj heq]
      exact h.replace hok (fun b hba => update_of_ne hba _ _) rfl rfl rfl
  | await a c accepted =>
      obtain ⟨me, hme, hrest⟩ := Option.bind_eq_some_iff.mp hs
      obtain ⟨hc, heq⟩ := Option.ite_none_left_eq_some.mp hrest
      obtain ⟨hfree, hidle⟩ := hok me hme
      rw [← Option.some.inj heq]
      cases accepted with
      | true => exact h.arm hme (hfree rfl) hc
      | false =>
          refine h.replace (a := a) ?_ (fun b hba => update_of_ne hba _ _) rfl rfl rfl
          intro x harmed
          obtain rfl : me = x := Option.some.inj (hme.symm.trans harmed.1)
          exact hidle harmed
  | expire ioc ident =>
      obtain ⟨e, he, hrest⟩ := Option.bind_eq_some_iff.mp hs
      obtain ⟨-, heq⟩ := Option.ite_none_left_eq_some.mp hrest
      rw [← Option.some.inj heq]
      exact h.expire he
  | react ioc ident =>
      obtain ⟨e, he, hrest⟩ := Option.bind_eq_some_iff.mp hs
      obtain ⟨-, heq⟩ := Option.ite_none_right_eq_some.mp hrest
      rw [← Option.some.inj heq]
      exact h.react he

theorem reachable_inv {s : State} (h : system.ReachableUnder Distinct s) : Inv s := by
  apply h.invariant
  · rintro _ rfl
    exact initial_inv
  · exact fun _ _ _ hi hok hs => step_inv hi hok hs

/-! ## An event that is lost -/

/-- A coroutine is left without an event where its object is armed no more. -/
theorem Inv.stranded {s t : State} (h : Inv s) {a d : ℕ} {x : Object} (hx : s.Armed a x)
    (hd : x.awaitingCoro = some d) (hsuspended : d ∈ t.suspended)
    (hself : ∀ y, t.Armed a y → y.awaitingCoro ≠ some d)
    (hothers : ∀ b y, b ≠ a → t.Armed b y → y.awaitingCoro = some d → s.Armed b y) :
    ¬ t.Sound := by
  intro hsound
  obtain ⟨b, y, hb, hy⟩ := hsound.awaited d hsuspended
  by_cases hba : b = a
  · subst hba
    exact hself y hb hy
  · exact hba (h.unique b a y x d (hothers b y hba hb hy) hx hy hd)

/-- The event is given to another await. -/
theorem Inv.breaks_taken {s : State} (h : Inv s) {a c : ℕ} {me : Object} {e : Event}
    (he : s.events (me.ioc, me.ident) = some e) (hc : c ∉ s.suspended) :
    ¬ (s.awaitSuspend a c me true).Sound := by
  obtain ⟨x, d, hx, hkey, hd, hmem⟩ := h.leads _ e he
  have hcd : c ≠ d := by
    rintro rfl
    exact hc hmem
  refine h.stranded hx hd (List.mem_cons_of_mem c hmem) (fun y hy hyd => ?_) fun b y _ hy hyd => ?_
  · rcases State.armed_awaitSuspend hy with ⟨-, hyc⟩ | ⟨hne, hys⟩
    · exact hcd (Option.some.inj (hyc.symm.trans hyd))
    · -- the event under the identifier points to the object that was awaited last
      obtain ⟨-, e', he', hudata, -⟩ := hy
      obtain rfl : y = x := Option.some.inj (hys.1.symm.trans hx.1)
      have hlast : (s.awaitSuspend a c me true).events (me.ioc, me.ident) =
          some ⟨me.timeout, a, false⟩ := update_self _ _ _
      rw [hkey, hlast] at he'
      exact hne (hudata.symm.trans (Option.some.inj he' ▸ rfl))
  · rcases State.armed_awaitSuspend hy with ⟨-, hyc⟩ | ⟨-, hys⟩
    · exact absurd (Option.some.inj (hyc.symm.trans hyd)) hcd
    · exact hys

/-- An object that is awaited is overwritten, or goes, and its event stays. -/
theorem Inv.breaks_idle {s t : State} (h : Inv s) {a : ℕ} {x : Object} (hx : s.Armed a x)
    (hobjects : ∀ b, b ≠ a → t.objects b = s.objects b) (hevents : t.events = s.events)
    (hsuspended : t.suspended = s.suspended)
    (hself : ∀ y d, t.objects a = some y → y.awaitingCoro = some d → d ∉ s.suspended) :
    ¬ t.Sound := by
  obtain ⟨hxa, e, he, rfl, -⟩ := hx
  obtain ⟨y, d, hy, -, hd, hmem⟩ := h.leads _ e he
  refine h.stranded hy hd (hsuspended ▸ hmem) (fun z hz hzd => hself z d hz.1 hzd hmem) ?_
  exact fun b z hb hz _ => (State.Armed.of_objects hobjects hevents hb).mp hz

/-- An event whose time is up resumes the coroutine it leads to. -/
theorem Inv.react_resumes {s : State} (h : Inv s) {a : ℕ} {x : Object} {c : ℕ}
    (harmed : s.Armed a x) (hc : x.awaitingCoro = some c) {e : Event}
    (he : s.events (x.ioc, x.ident) = some e) (hfired : e.fired = true) :
    ∃ t, step s (.react x.ioc x.ident) = some t ∧ t.resumed = s.resumed ++ [c] := by
  obtain ⟨y, d, hy, -, hd, hmem⟩ := h.leads _ e he
  obtain ⟨hxa, e', he', rfl, -⟩ := harmed
  obtain rfl : e = e' := Option.some.inj (he.symm.trans he')
  obtain rfl : x = y := Option.some.inj (hxa.symm.trans hy.1)
  obtain rfl : c = d := Option.some.inj (hc.symm.trans hd)
  refine ⟨_, Option.bind_eq_some_iff.mpr ⟨e, he, if_pos hfired⟩, ?_⟩
  have hreact := onTimerExpiration_eq (a := e.udata)
    (s := { s with events := update s.events (x.ioc, x.ident) none }) hxa hc hmem
  exact congrArg State.resumed hreact

/-- Every coroutine that is suspended can be resumed: its time is up, and the reactor runs. -/
theorem Inv.can_resume {s : State} (h : Inv s) {c : ℕ} (hc : c ∈ s.suspended) :
    ∃ ls t, system.run s ls = some t ∧ t.resumed = s.resumed ++ [c] := by
  obtain ⟨a, x, harmed, hxc⟩ := h.awaited c hc
  obtain ⟨hxa, e, he, hudata, hdata⟩ := harmed
  cases hfired : e.fired with
  | true =>
      obtain ⟨t, ht, hresumed⟩ := h.react_resumes ⟨hxa, e, he, hudata, hdata⟩ hxc he hfired
      exact ⟨[.react x.ioc x.ident], t, System.run_cons [] ht, hresumed⟩
  | false =>
      have hexpire : step s (.expire x.ioc x.ident) = some { s with
          events := update s.events (x.ioc, x.ident) (some { e with fired := true }) } := by
        refine Option.bind_eq_some_iff.mpr ⟨e, he, ?_⟩
        rw [hfired]
        rfl
      have hup : update s.events (x.ioc, x.ident) (some { e with fired := true }) (x.ioc, x.ident) =
          some { e with fired := true } := update_self _ _ _
      obtain ⟨t, ht, hresumed⟩ := (h.expire he).react_resumes
        ⟨hxa, { e with fired := true }, hup, hudata, hdata⟩ hxc hup rfl
      refine ⟨[.expire x.ioc x.ident, .react x.ioc x.ident], t, ?_, hresumed⟩
      rw [System.run_cons _ hexpire, System.run_cons _ ht]
      rfl

/-- **Where the timers keep their promise**: in every run where an identifier is awaited by one
at a time, each suspended coroutine has its own event and can be resumed, and the reactor
resumes nothing else. One step against this leaves a coroutine that no event leads to. -/
theorem sound_iff_distinct :
    (∀ s, system.ReachableUnder Distinct s → s.Sound ∧ ∀ c ∈ s.suspended,
      ∃ ls t, system.run s ls = some t ∧ t.resumed = s.resumed ++ [c]) ∧
    system.Breaks Distinct State.Sound := by
  refine ⟨fun s hs => ⟨(reachable_inv hs).toSound, fun c => (reachable_inv hs).can_resume⟩,
    fun s act t hs hstep hbad => ?_⟩
  have hi := reachable_inv hs
  refine ⟨[], t, rfl, ?_⟩
  cases act with
  | construct a ioc ident nanoseconds => exact absurd trivial hbad
  | expire ioc ident => exact absurd trivial hbad
  | react ioc ident => exact absurd trivial hbad
  | destroy a =>
      obtain ⟨x, hx⟩ := not_forall_not.mp hbad
      obtain ⟨y, -, heq⟩ := Option.bind_eq_some_iff.mp hstep
      rw [← Option.some.inj heq]
      refine hi.breaks_idle hx (fun b hba => update_of_ne hba _ _) rfl rfl fun z d hz => ?_
      have hself : update s.objects a none a = some z := hz
      rw [update_self] at hself
      cases hself
  | await a c accepted =>
      obtain ⟨me, hme, hrest⟩ := Option.bind_eq_some_iff.mp hstep
      obtain ⟨hc, heq⟩ := Option.ite_none_left_eq_some.mp hrest
      rw [← Option.some.inj heq]
      cases accepted with
      | true =>
          obtain ⟨e, he⟩ : ∃ e, s.events (me.ioc, me.ident) = some e := by
            by_contra hnone
            have hfree := Option.eq_none_iff_forall_ne_some.mpr (not_exists.mp hnone)
            refine hbad fun x hx => ?_
            obtain rfl : me = x := Option.some.inj (hme.symm.trans hx)
            refine ⟨fun _ => hfree, fun harmed => ?_⟩
            obtain ⟨-, e, he, -⟩ := harmed
            exact hnone ⟨e, he⟩
          exact hi.breaks_taken he hc
      | false =>
          obtain ⟨x, hx⟩ : ∃ x, s.Armed a x := by
            by_contra hnone
            exact hbad fun x _ => ⟨by rintro ⟨⟩, fun harmed => hnone ⟨x, harmed⟩⟩
          refine hi.breaks_idle hx (fun b hba => update_of_ne hba _ _) rfl rfl fun y d hy hd => ?_
          have hself : update s.objects a (some { me with awaitingCoro := some c }) a =
              some y := hy
          rw [update_self] at hself
          obtain rfl := Option.some.inj hself
          obtain rfl : c = d := Option.some.inj hd
          exact hc

/-- Two timers with identifiers of their own: the coroutine that still waits can be resumed. -/
theorem sound_iff_distinct_two_timers :
    ∃ s, system.run initial [.construct 0 3 0 2000000, .construct 1 3 1 2000000,
      .await 0 7 true, .await 1 8 true, .expire 3 1, .react 3 1] = some s ∧
      s.resumed = [8] ∧ s.Sound ∧
      ∃ ls t, system.run s ls = some t ∧ t.resumed = s.resumed ++ [7] := by
  have hmeets : system.Meets Distinct initial [.construct 0 3 0 2000000,
      .construct 1 3 1 2000000, .await 0 7 true, .await 1 8 true, .expire 3 1, .react 3 1] := by
    refine ⟨trivial, _, rfl, trivial, _, rfl, ?_, _, rfl, ?_, _, rfl, trivial, _, rfl, trivial,
      _, rfl, trivial⟩
    · rintro x hx
      cases hx
      exact ⟨fun _ => rfl, fun ⟨_, _, he, _⟩ => by cases he⟩
    · rintro x hx
      cases hx
      exact ⟨fun _ => rfl, fun ⟨_, _, he, _⟩ => by cases he⟩
  have hreach := System.ReachableUnder.run (.init rfl) hmeets rfl
  obtain ⟨hsound, hresume⟩ := sound_iff_distinct.1 _ hreach
  exact ⟨_, rfl, rfl, hsound, hresume 7 (by decide)⟩

/-- Two timers with one identifier: the first coroutine is never resumed. -/
example : ((system.run initial [.construct 0 3 0 2000000, .construct 1 3 0 2000000,
    .await 0 7 true, .await 1 8 true, .expire 3 0, .react 3 0]).map
      fun s => (s.suspended, s.resumed)) = some ([7], [8]) := by decide

end Coroutines.AwaitableTimer.Kqueue
