import Coroutines.TimerService.Gate

/-!
# The worker that sleeps through its last completion

At the end of `on_shutdown_request` the worker sleeps while `n_inflight_timers` is not zero.
Reactors take requests off that count, but only an APC wakes the worker. When the APC of the
last timer has run and the worker tests the count before a reactor has taken the request off
it, the worker goes to sleep and nothing wakes it again.
-/

namespace Coroutines.TimerService

open Transition Tally

/-! ## A worker that nothing wakes -/

/-- The worker is in `SleepEx`, no timer is armed and no APC is queued to it. -/
structure State.Blocked (s : State) : Prop where
  sleep : s.worker = .sleep
  armed : s.armed = []
  apcs : s.apcs = []

/-- No post is on its way to the queue when `shutdown` sets the flag. One that comes later is
denied. -/
def NoFurtherPosts (s : State) : Act → Prop
  | .shutdown => s.shutdown = .idle → ∀ p ∈ s.posts, p.between = false
  | _ => True

/-- One timer expires, and its APC has woken the worker. The worker tests the count before the
reactor takes the request off it. The push has not set the event yet, so the APC of `shutdown`
finds the worker in its wait. -/
def testedBeforeReactor : List Act :=
  [.enter 0 false, .enter 0 true, .post 0, .post 0, .post 0, .work, .work, .work, .shutdown,
    .shutdown, .apc, .work, .work, .expire 0, .apc, .work]

theorem blocked_after_early_test :
    ¬ ∀ s, system.ReachableUnder NoFurtherPosts s → ¬ s.Blocked := by
  intro h
  have h0 : system.ReachableUnder NoFurtherPosts (initial 1 1) := .init ⟨1, 1, rfl⟩
  have hm : system.Meets NoFurtherPosts (initial 1 1) testedBeforeReactor :=
    ⟨trivial, _, rfl, trivial, _, rfl, trivial, _, rfl, trivial, _, rfl, trivial, _, rfl,
      trivial, _, rfl, trivial, _, rfl, trivial, _, rfl, fun _ => by decide, _, rfl, nofun, _, rfl,
      trivial, _, rfl, trivial, _, rfl, trivial, _, rfl, trivial, _, rfl, trivial, _, rfl, trivial,
      _, rfl, trivial⟩
  exact h _ (h0.run hm rfl) ⟨rfl, rfl, rfl⟩

/-! ## What the shutdown keeps -/

/-- The reactors have taken every request that was posted to the port off the count. -/
structure State.CaughtUp (s : State) : Prop where
  packets : ∀ r, Packet.request r ∉ s.packets
  reactors : ∀ (k r : ℕ), s.reactors[k]? ≠ some (.dequeued r)

/-- When the worker tests the count with no timer armed and no APC queued, the reactors have
caught up. -/
def Timely (s : State) (act : Act) : Prop :=
  NoFurtherPosts s act ∧
    (act = .work → s.worker = .loadInflight → s.armed = [] → s.apcs = [] → s.CaughtUp)

structure Closing (s : State) : Prop extends Sealed s where
  posts : s.shutdown ≠ .idle → ∀ p ∈ s.posts, p.between = false

theorem initial_closing (nPosts nReactors : ℕ) : Closing (initial nPosts nReactors) where
  toSealed := initial_sealed nPosts nReactors
  posts h := absurd rfl h

theorem Closing.keep {s s' : State} (h : Closing s) (hsealed : Sealed s')
    (hposts : s'.posts = s.posts) (hshutdown : s'.shutdown = s.shutdown) : Closing s' where
  toSealed := hsealed
  posts hne := by
    rw [hshutdown] at hne
    rw [hposts]
    exact h.posts hne

theorem step_closing {s s' : State} {act : Act} (h : Closing s) (hok : NoFurtherPosts s act)
    (hs : step s act = some s') : Closing s' := by
  have hsealed : Sealed s' := by
    refine step_sealed h.toSealed (fun _ hpc _ => h.posts (h.not_idle ?_)) hs
    rw [hpc]
    rfl
  cases act with
  | post r =>
      refine ⟨hsealed, fun hne => ?_⟩
      have hshutdown : s'.shutdown = s.shutdown := by
        cases postStep_case hs with
        | _ => rfl
      rw [hshutdown] at hne
      exact (postStep_between (h.flag hne) (h.posts hne) hs).1.2
  | work =>
      cases workStep_case hs with
      | _ => exact h.keep hsealed rfl rfl
  | apc =>
      cases apcStep_case hs with
      | _ => exact h.keep hsealed rfl rfl
  | expire r =>
      obtain ⟨haside, hshutdown⟩ := expireStep_aside hs
      exact h.keep hsealed haside.posts hshutdown
  | enter k spurious =>
      have hwithin := enterStep_within hs
      exact h.keep hsealed hwithin.posts hwithin.shutdown
  | react k =>
      have hwithin := reactStep_within hs
      exact h.keep hsealed hwithin.posts hwithin.shutdown
  | shutdown =>
      refine ⟨hsealed, fun _ => ?_⟩
      rw [(shutdownStep_aside hs).posts]
      by_cases hidle : s.shutdown = .idle
      · exact hok hidle
      · exact h.posts hidle

/-! ## Whether the worker can still be woken -/

/-- Requests in flight are with the reactors once no timer is armed and no APC queued. -/
theorem Closing.inflight_eq {s : State} (h : Closing s) (hw : s.worker.drained = true)
    (harmed : s.armed = []) (hapcs : s.apcs = []) :
    (s.inflight fun _ => 1) = weigh (Packet.weight fun _ => 1) s.packets +
      weigh (ReactorPc.inflight fun _ => 1) s.reactors := by
  have harming : (s.worker.arming fun _ => 1) = 0 := by
    revert hw
    cases s.worker <;> first | exact fun _ => rfl | exact nofun
  simp only [State.inflight, State.toArm, (h.drained hw).1, harmed, hapcs, harming, weigh_nil,
    Nat.zero_add]

/-- **The reactors have caught up** when nothing more is in flight. -/
theorem State.caughtUp_iff {s : State} :
    s.CaughtUp ↔ weigh (Packet.weight fun _ => 1) s.packets +
      weigh (ReactorPc.inflight fun _ => 1) s.reactors = 0 := by
  constructor
  · rintro ⟨hpackets, hreactors⟩
    refine Nat.add_eq_zero_iff.mpr ⟨weigh_eq_zero fun p hp => ?_, weigh_eq_zero fun p hp => ?_⟩
    · cases p with
      | request r => exact absurd hp (hpackets r)
      | shutdown => rfl
    · obtain ⟨k, hk⟩ := List.getElem?_of_mem hp
      cases p with
      | dequeued r => exact absurd hk (hreactors k r)
      | _ => rfl
  · intro hzero
    obtain ⟨hpackets, hreactors⟩ := Nat.add_eq_zero_iff.mp hzero
    constructor
    · intro r hmem
      have hle := le_weigh (w := Packet.weight fun _ => 1) hmem
      rw [hpackets] at hle
      cases hle
    · intro k r hk
      have hle := le_weigh (w := ReactorPc.inflight fun _ => 1) (List.mem_of_getElem? hk)
      rw [hreactors] at hle
      cases hle

theorem Closing.nInflightTimers_eq {s : State} (h : Closing s) (hw : s.worker.drained = true) :
    s.nInflightTimers = BitVec.ofNat 32 (s.inflight fun _ => 1) := by
  rw [h.count, pushing_eq_zero (h.drained hw).2, Nat.zero_add]

/-- **A timely worker can be woken**: it sleeps only while a timer is armed or an APC queued. -/
structure Awake (s : State) : Prop extends Closing s where
  awake : s.worker = .sleep → s.armed = [] → s.apcs ≠ []

theorem workStep_awake {s s' : State} (h : Awake s) (hok : Timely s .work)
    (hclosing : Closing s') (hs : workStep s = some s') : Awake s' := by
  refine ⟨hclosing, fun hw harmed hapcs => ?_⟩
  cases workStep_case hs with
  | sleep hpc hpos =>
      -- the count is zero, so the worker does not sleep
      have hdrained : s.worker.drained = true := by rw [hpc]; rfl
      have hcaught := State.caughtUp_iff.mp (hok.2 rfl hpc harmed hapcs)
      have hcount : s.nInflightTimers = 0 := by
        rw [h.nInflightTimers_eq hdrained, h.inflight_eq hdrained harmed hapcs, hcaught]
        rfl
      rw [hcount] at hpos
      exact absurd hpos (by decide)
  | _ => cases hw

theorem WorkerPc.afterApc_ne_sleep (pc : WorkerPc) : pc.afterApc ≠ .sleep := by
  cases pc <;> exact nofun

theorem apcStep_awake {s s' : State} (hclosing : Closing s') (hs : apcStep s = some s') :
    Awake s' := by
  refine ⟨hclosing, fun hw => ?_⟩
  cases apcStep_case hs with
  | expired =>
      exact absurd hw (WorkerPc.afterApc_ne_sleep s.worker)
  | shutdown => cases hw

theorem Awake.keep {s s' : State} (h : Awake s) (hclosing : Closing s')
    (hworker : s'.worker = s.worker) (harmed : s'.armed = s.armed)
    (hapcs : s'.apcs = [] → s.apcs = []) : Awake s' where
  toClosing := hclosing
  awake hw harm hnone := by
    rw [hworker] at hw
    rw [harmed] at harm
    exact h.awake hw harm (hapcs hnone)

theorem Awake.within {s s' : State} (h : Awake s) (hclosing : Closing s')
    (hwithin : Within s s') : Awake s' := by
  refine h.keep hclosing hwithin.worker hwithin.armed fun hnone => ?_
  rw [← hwithin.apcs]
  exact hnone

theorem postStep_awake {s s' : State} {r : ℕ} (h : Awake s) (hclosing : Closing s')
    (hs : postStep s r = some s') : Awake s' := by
  cases postStep_case hs with
  | _ => exact h.keep hclosing rfl rfl id

theorem expireStep_awake {s s' : State} {r : ℕ} (hclosing : Closing s')
    (hs : expireStep s r = some s') : Awake s' := by
  refine ⟨hclosing, fun _ _ => ?_⟩
  obtain ⟨-, rfl⟩ := expireStep_eq hs
  exact List.append_ne_nil_of_right_ne_nil _ (List.cons_ne_nil _ _)

theorem shutdownStep_awake {s s' : State} (h : Awake s) (hclosing : Closing s')
    (hs : shutdownStep s = some s') : Awake s' := by
  cases shutdownStep_case hs with
  | queueApc =>
      refine h.keep hclosing rfl rfl fun hnone => ?_
      cases (List.append_eq_nil_iff.mp hnone).2
  | _ => exact h.keep hclosing rfl rfl id

theorem step_awake {s s' : State} {act : Act} (h : Awake s) (hok : Timely s act)
    (hs : step s act = some s') : Awake s' := by
  have hclosing := step_closing h.toClosing hok.1 hs
  cases act with
  | post r => exact postStep_awake h hclosing hs
  | work => exact workStep_awake h hok hclosing hs
  | apc => exact apcStep_awake hclosing hs
  | expire r => exact expireStep_awake hclosing hs
  | enter k spurious => exact h.within hclosing (enterStep_within hs)
  | react k => exact h.within hclosing (reactStep_within hs)
  | shutdown => exact shutdownStep_awake h hclosing hs

/-! ## A blocked worker stays blocked -/

/-- The worker is blocked, and `shutdown` will not queue an APC. -/
structure Lost (s : State) : Prop extends State.Blocked s, Gate s

theorem Lost.not_early {s : State} (h : Lost s) : s.shutdown.early = false := by
  apply h.late
  rw [h.sleep]
  rfl

theorem Lost.within {s s' : State} (h : Lost s) (hgate : Gate s') (hworker : s'.worker = s.worker)
    (harmed : s'.armed = s.armed) (hapcs : s'.apcs = s.apcs) : Lost s' where
  sleep := hworker.trans h.sleep
  armed := harmed.trans h.armed
  apcs := hapcs.trans h.apcs
  toGate := hgate

theorem step_lost {s s' : State} {act : Act} (h : Lost s) (hs : step s act = some s') :
    Lost s' := by
  have hgate := step_gate h.toGate hs
  cases act with
  | post r =>
      cases postStep_case hs with
      | _ => exact h.within hgate rfl rfl rfl
  | work =>
      replace hs : workStep s = some s' := hs
      simp only [workStep, h.sleep, reduceCtorEq] at hs
  | apc =>
      replace hs : apcStep s = some s' := hs
      simp only [apcStep, State.alertable, h.sleep, h.apcs, if_true, reduceCtorEq] at hs
  | expire r =>
      replace hs : expireStep s r = some s' := hs
      simp only [expireStep, h.armed, List.not_mem_nil, false_and, if_false, reduceCtorEq] at hs
  | enter k spurious =>
      have hwithin := enterStep_within hs
      exact h.within hgate hwithin.worker hwithin.armed hwithin.apcs
  | react k =>
      have hwithin := reactStep_within hs
      exact h.within hgate hwithin.worker hwithin.armed hwithin.apcs
  | shutdown =>
      have hlate := h.not_early
      cases shutdownStep_case hs with
      | setFlag hpc | queueApc hpc =>
          rw [hpc] at hlate
          cases hlate
      | _ => exact h.within hgate rfl rfl rfl

theorem Lost.run {s t : State} (h : Lost s) {acts : List Act}
    (hrun : system.run s acts = some t) : Lost t := by
  induction acts generalizing s with
  | nil =>
      cases hrun
      exact h
  | cons act acts ih =>
      obtain ⟨u, hu, hrest⟩ := Option.bind_eq_some_iff.mp hrun
      exact ih (step_lost h hu) hrest

/-- **A worker that tests the count after the reactors have caught up is never blocked.** In
every state reached by runs in which no post is under way when `shutdown` sets the flag, and in
which the reactors have caught up whenever the worker tests the count with no timer armed and no
APC queued, the worker is not blocked. A test before that puts it to sleep for good, as long as
fewer than `2 ^ 32` requests are in flight. -/
theorem not_blocked_of_timely (s : State) (h : system.ReachableUnder Timely s) :
    ¬ s.Blocked ∧ (s.worker = .loadInflight → s.armed = [] → s.apcs = [] →
      (s.inflight fun _ => 1) < 2 ^ 32 → ¬ s.CaughtUp →
        ∃ t, step s .work = some t ∧
          ∀ acts u, system.run t acts = some u → u.Blocked) := by
  have hawake : Awake s := by
    apply h.invariant
    · rintro _ ⟨nPosts, nReactors, rfl⟩
      exact ⟨initial_closing nPosts nReactors, nofun⟩
    · exact fun _ _ _ hi hok hs => step_awake hi hok hs
  refine ⟨fun hb => hawake.awake hb.sleep hb.armed hb.apcs, ?_⟩
  intro hpc harmed hapcs hlt hbehind
  have hdrained : s.worker.drained = true := by rw [hpc]; rfl
  have hpos : 0 < s.nInflightTimers := by
    rw [hawake.nInflightTimers_eq hdrained, BitVec.lt_def, BitVec.toNat_ofNat, Nat.mod_eq_of_lt hlt,
      hawake.inflight_eq hdrained harmed hapcs]
    exact Nat.pos_of_ne_zero fun hzero => hbehind (State.caughtUp_iff.mpr hzero)
  have hs : step s .work = some { s with worker := .sleep } := by
    simp only [step, workStep, hpc, if_pos hpos]
  have hlost : Lost { s with worker := .sleep } :=
    { sleep := rfl, armed := harmed, apcs := hapcs, toGate := step_gate hawake.toGate hs }
  exact ⟨_, hs, fun acts u hrun => (hlost.run hrun).toBlocked⟩

/-- The reactor takes the request off the count before the worker tests it again. -/
def testedAfterReactor : List Act :=
  [.enter 0 false, .enter 0 true, .post 0, .post 0, .post 0, .work, .work, .work, .shutdown,
    .shutdown, .apc, .work, .work, .expire 0, .apc, .react 0, .react 0, .work]

theorem not_blocked_of_timely_after_reactor :
    ∃ s, system.ReachableUnder Timely s ∧ s.worker = .exited ∧ ¬ s.Blocked := by
  have hm : system.Meets Timely (initial 1 1) testedAfterReactor :=
    ⟨⟨trivial, nofun⟩, _, rfl, ⟨trivial, nofun⟩, _, rfl, ⟨trivial, nofun⟩, _, rfl,
      ⟨trivial, nofun⟩, _, rfl, ⟨trivial, nofun⟩, _, rfl, ⟨trivial, fun _ => nofun⟩, _, rfl,
      ⟨trivial, fun _ => nofun⟩, _, rfl, ⟨trivial, fun _ => nofun⟩, _, rfl,
      ⟨fun _ => by decide, nofun⟩, _, rfl,
      ⟨nofun, nofun⟩, _, rfl, ⟨trivial, nofun⟩, _, rfl, ⟨trivial, fun _ => nofun⟩, _, rfl,
      ⟨trivial, fun _ _ => nofun⟩, _, rfl, ⟨trivial, nofun⟩, _, rfl, ⟨trivial, nofun⟩, _, rfl,
      ⟨trivial, nofun⟩, _, rfl, ⟨trivial, nofun⟩, _, rfl,
      ⟨trivial, fun _ _ _ _ => State.caughtUp_iff.mpr rfl⟩, _, rfl, trivial⟩
  have h0 : system.ReachableUnder Timely (initial 1 1) := .init ⟨1, 1, rfl⟩
  have hs := h0.run hm rfl
  exact ⟨_, hs, rfl, (not_blocked_of_timely _ hs).1⟩

end Coroutines.TimerService
