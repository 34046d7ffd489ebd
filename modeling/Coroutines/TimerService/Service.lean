import Coroutines.TimerService.Gate

/-!
# Every accepted request is serviced

A post tests the closed flag, counts its request and pushes it in three steps, and `shutdown`
does not wait for posts that are between them: the worker can drain the queue, find nothing in
flight and exit before such a post pushes. When no post is between these steps at the moment the
drain finds the queue empty, every accepted request is armed and handled once.

That needs a worker that runs the APCs of its timers. Nothing resets the event of the queue: once
a push has set it, `pop` tests an empty queue again and again, and never blocks in a wait in which
an APC could run. A worker that is in `process_requests` then handles no further timer.
-/

namespace Coroutines.TimerService

open Transition Tally Function

/-! ## What the service promises -/

/-- Neither the worker nor a timer nor a reactor in its loop can move. -/
structure State.Quiet (s : State) : Prop where
  work : workStep s = none
  apc : apcStep s = none
  expire : ∀ r, expireStep s r = none
  react : ∀ k, reactStep s k = none

/-- No completion handler is called twice. Once the worker has exited the queue is empty, and each
accepted request was armed and is handled, or about to be; and when the service has come to rest,
with a reactor that waits for packets, all of them are handled. -/
structure State.Serviced (s : State) : Prop where
  once : ∀ r, s.arms r ≤ 1 ∧ s.handled r ≤ 1
  exited : s.worker = .exited → s.requests = [] ∧ ∀ r, s.posts[r]? = some .accepted →
    s.arms r = 1 ∧ (s.handled r = 1 ∨ ∃ k : ℕ, s.reactors[k]? = some (.handle r))
  quiet : s.Quiet → (∃ k : ℕ, s.reactors[k]? = some .dequeue) →
    ∀ r, s.posts[r]? = some .accepted → s.arms r = 1 ∧ s.handled r = 1

/-- A post finds the flag clear; `shutdown` sets it, the worker drains the empty queue, finds
nothing in flight and exits; then the post pushes its request. -/
def pushedAfterDrain : List Act :=
  [.work, .post 0, .shutdown, .shutdown, .apc, .work, .work, .post 0, .post 0, .post 0]

theorem not_serviced_after_late_push : ¬ ∀ s, system.Reachable s → s.Serviced := by
  intro h
  have hr : system.Reachable (initial 1 1) := .init ⟨1, 1, rfl⟩
  have hexited := (h _ (hr.run pushedAfterDrain rfl)).exited rfl
  cases hexited.1

/-! ## Posts before the drain ends -/

/-- When the drain finds the queue empty, no post is still on its way to it; when the worker tests
the count of the requests in flight, there are fewer of them than the count can tell; and no
timer's APC runs in a wait for the mutex. -/
def Settled (s : State) : Act → Prop
  | .work =>
      (s.worker = .drain → s.requests = [] → ∀ p ∈ s.posts, p.between = false) ∧
      (s.worker = .loadInflight → (s.inflight fun _ => 1) < 2 ^ 32)
  | .apc => NoApcInLock s .apc
  | _ => True

structure Inv (s : State) : Prop extends Sealed s where
  gone : s.worker = .exited → (s.inflight fun _ => 1) = 0
  woken : .accepted ∈ s.posts → s.nonEmpty = true

theorem initial_inv (nPosts nReactors : ℕ) : Inv (initial nPosts nReactors) where
  toSealed := initial_sealed nPosts nReactors
  gone h := by cases h
  woken h := by cases List.eq_of_mem_replicate h

/-! ## What each step keeps -/

theorem Inv.keep {s s' : State} (h : Inv s) (hsealed : Sealed s')
    (hgone : s'.worker = .exited → (s'.inflight fun _ => 1) = 0) (hposts : s'.posts = s.posts)
    (hset : s'.nonEmpty = s.nonEmpty) : Inv s' where
  toSealed := hsealed
  gone := hgone
  woken hmem := by
    rw [hposts] at hmem
    exact hset.trans (h.woken hmem)

theorem Inv.aside {s s' : State} (h : Inv s) (hsealed : Sealed s') (haside : Aside s s')
    (hset : s'.nonEmpty = s.nonEmpty)
    (hinflight : (s'.inflight fun _ => 1) ≤ s.inflight fun _ => 1) : Inv s' := by
  refine h.keep hsealed (fun hw => ?_) haside.posts hset
  rw [haside.worker] at hw
  exact Nat.le_zero.mp (hinflight.trans (h.gone hw).le)

theorem postStep_inv {s s' : State} {r : ℕ} (h : Inv s) (hs : postStep s r = some s') :
    Inv s' := by
  have hsealed := postStep_sealed h.toSealed hs
  constructor
  case toSealed => exact hsealed
  case gone =>
    intro hw
    have hworker : s'.worker = s.worker := by
      cases postStep_case hs with
      | _ => rfl
    rw [hworker] at hw
    have hdrained : s.worker.drained = true := by rw [hw]; rfl
    have hclosed := h.closed (WorkerPc.closing_of_drained hdrained)
    rw [(postStep_between hclosed (h.drained hdrained).2 hs).2]
    exact h.gone hw
  case woken =>
    have hset : ∀ {pc : PostPc}, pc ≠ .accepted → .accepted ∈ s.posts.set r pc →
        s.nonEmpty = true := by
      intro pc hpc hmem
      rcases List.mem_or_eq_of_mem_set hmem with hmem | heq
      · exact h.woken hmem
      · exact absurd heq.symm hpc
    cases postStep_case hs with
    | test hr =>
        apply hset
        split
        · exact nofun
        · exact nofun
    | addInflight hr | push hr => exact hset nofun
    | setEvent hr => exact fun _ => rfl

theorem workStep_inv {s s' : State} (h : Inv s) (hok : Settled s .work)
    (hs : workStep s = some s') : Inv s' := by
  have hsealed := workStep_sealed h.toSealed hok.1 hs
  cases workStep_case hs with
  | exit hpc hzero =>
      refine h.keep hsealed (fun _ => ?_) rfl rfl
      -- the worker exits when nothing is in flight
      have hdrained := h.drained (by rw [hpc]; rfl)
      have hnone := congrArg BitVec.toNat hzero
      rw [h.count, pushing_eq_zero hdrained.2, Nat.zero_add, BitVec.toNat_ofNat,
        Nat.mod_eq_of_lt (hok.2 hpc)] at hnone
      exact ((workStep_moved hs).inflight _).trans hnone
  | _ => exact h.keep hsealed nofun rfl rfl

theorem State.alertable_ne_exited {s : State} (h : s.alertable = true) : s.worker ≠ .exited := by
  intro hw
  rw [State.alertable, hw] at h
  cases h

theorem WorkerPc.afterApc_ne_exited {pc : WorkerPc} (h : pc ≠ .exited) : pc.afterApc ≠ .exited := by
  cases pc with
  | exited => exact absurd rfl h
  | _ => exact nofun

theorem apcStep_inv {s s' : State} (h : Inv s) (hs : apcStep s = some s') : Inv s' := by
  have hsealed := apcStep_sealed h.toSealed hs
  cases apcStep_case hs with
  | expired halert =>
      have hne := WorkerPc.afterApc_ne_exited (State.alertable_ne_exited halert)
      exact h.keep hsealed (fun hw => absurd hw hne) rfl rfl
  | shutdown => exact h.keep hsealed nofun rfl rfl

theorem reactStep_inflight_le {s s' : State} {k : ℕ} (hs : reactStep s k = some s') :
    (s'.inflight fun _ => 1) ≤ s.inflight fun _ => 1 := by
  have hset : ∀ {old : ReactorPc}, s.reactors[k]? = some old → ∀ pc,
      weigh (ReactorPc.inflight fun _ => 1) (s.reactors.set k pc) + old.inflight (fun _ => 1) =
        weigh (ReactorPc.inflight fun _ => 1) s.reactors + pc.inflight fun _ => 1 :=
    fun hk pc => weigh_set hk pc
  cases reactStep_case hs with
  | dequeue hk hpackets hpc =>
      exact ((dequeue_moved hk hpackets hpc).inflight _).le
  | @removeInflight r hk =>
      have hset := hset hk (.handle r)
      simp only [State.inflight, State.toArm, State.goReactor, ReactorPc.inflight] at hset ⊢
      omega
  | handle hk =>
      have hset := hset hk .dequeue
      simp only [State.inflight, State.toArm, State.goReactor, ReactorPc.inflight] at hset ⊢
      omega
  | leave hk =>
      have hset := hset hk .outside
      simp only [State.inflight, State.toArm, State.goReactor, ReactorPc.inflight] at hset ⊢
      omega

theorem step_inv {s s' : State} {act : Act} (h : Inv s) (hok : Settled s act)
    (hs : step s act = some s') : Inv s' := by
  have hsealed : Sealed s' := by
    refine step_sealed h.toSealed ?_ hs
    rintro rfl
    exact hok.1
  cases act with
  | post r => exact postStep_inv h hs
  | work => exact workStep_inv h hok hs
  | apc => exact apcStep_inv h hs
  | expire r =>
      obtain ⟨-, rfl⟩ := expireStep_eq hs
      exact h.aside hsealed ⟨rfl, rfl, rfl⟩ rfl ((expireStep_moved hs).inflight _).le
  | enter k spurious =>
      refine h.aside hsealed (enterStep_within hs).toAside ?_ ((enterStep_moved hs).inflight _).le
      cases enterStep_case hs with
      | _ => rfl
  | react k =>
      refine h.aside hsealed (reactStep_within hs).toAside ?_ (reactStep_inflight_le hs)
      cases reactStep_case hs with
      | _ => rfl
  | shutdown =>
      refine h.aside hsealed (shutdownStep_aside hs) ?_ ((shutdownStep_moved hs).inflight _).le
      cases shutdownStep_case hs with
      | _ => rfl

/-! ## What the invariant comes to -/

/-- Each request weighs at most one. -/
theorem State.inflight_single_le (s : State) (r : ℕ) :
    s.inflight (single r) ≤ s.inflight fun _ => 1 := by
  have hsingle : ∀ q, single r q ≤ 1 := by
    intro q
    unfold single
    split <;> omega
  have harming : s.worker.arming (single r) ≤ s.worker.arming fun _ => 1 := by
    cases s.worker <;> first | exact hsingle _ | exact Nat.le_refl 0
  have hreq := weigh_mono (l := s.requests) hsingle
  have harmed := weigh_mono (l := s.armed) hsingle
  have hapcs : weigh (Apc.weight (single r)) s.apcs ≤ weigh (Apc.weight fun _ => 1) s.apcs := by
    apply weigh_mono
    intro x
    cases x <;> first | exact hsingle _ | exact Nat.le_refl 0
  have hpackets : weigh (Packet.weight (single r)) s.packets ≤
      weigh (Packet.weight fun _ => 1) s.packets := by
    apply weigh_mono
    intro x
    cases x <;> first | exact hsingle _ | exact Nat.le_refl 0
  have hreactors : weigh (ReactorPc.inflight (single r)) s.reactors ≤
      weigh (ReactorPc.inflight fun _ => 1) s.reactors := by
    apply weigh_mono
    intro x
    cases x <;> first | exact hsingle _ | exact Nat.le_refl 0
  unfold State.inflight State.toArm
  omega

/-- An accepted request that is in no place has been armed and handled. -/
theorem Ledger.settle {s : State} (h : Ledger s) {r : ℕ} (hr : s.posts[r]? = some .accepted)
    (hnone : s.inflight (single r) = 0) :
    s.arms r = 1 ∧ s.handling (single r) + s.handled r = 1 := by
  have hpushed : s.pushed r = 1 := State.pushed_eq hr
  have hplace := h.place r
  have harmed := h.armed r
  have htoArm : s.toArm (single r) ≤ s.inflight (single r) := by
    unfold State.inflight
    omega
  omega

/-- **Nothing is left at rest**, once the event is set. -/
theorem Inv.inflight_of_quiet {s : State} (h : Inv s) (hquiet : s.Quiet) (hset : s.nonEmpty = true)
    (hwaiting : ∃ k : ℕ, s.reactors[k]? = some .dequeue) (f : ℕ → ℕ) :
    (s.worker = .exited ∨ s.inflight f = 0) ∧ s.handling f = 0 := by
  have hreactor : ∀ p ∈ s.reactors, p.inflight f = 0 ∧ p.handling f = 0 := by
    intro p hp
    obtain ⟨k, hk⟩ := List.getElem?_of_mem hp
    have hstuck := hquiet.react k
    cases p with
    | dequeued r => simp [reactStep, hk] at hstuck
    | handle r => simp [reactStep, hk] at hstuck
    | _ => exact ⟨rfl, rfl⟩
  have hpackets : s.packets = [] := by
    obtain ⟨k, hk⟩ := hwaiting
    have hstuck := hquiet.react k
    rcases hp : s.packets with _ | ⟨p, rest⟩
    · rfl
    · cases p <;> simp [reactStep, hk, hp] at hstuck
  refine ⟨?_, weigh_eq_zero fun p hp => (hreactor p hp).2⟩
  have hreactors := weigh_eq_zero fun p hp => (hreactor p hp).1
  -- a worker that is stuck has an empty queue, and no APC to run
  have hidle : s.worker = .exited ∨
      s.worker.arming f = 0 ∧ s.requests = [] ∧ s.apcs = [] := by
    have hwork := hquiet.work
    have hapc := hquiet.apc
    have hapcs : s.alertable = true → s.apcs = [] := by
      intro halert
      rcases ha : s.apcs with _ | ⟨a, rest⟩
      · rfl
      · cases a <;> simp [apcStep, halert, ha] at hapc
    cases hw : s.worker with
    | pop =>
        rcases hr : s.requests with _ | ⟨r, rest⟩ <;> simp [workStep, hw, hr] at hwork
    | wait => simp [workStep, hw, hset] at hwork
    | arm r => simp [workStep, hw] at hwork
    | drain =>
        rcases hr : s.requests with _ | ⟨r, rest⟩ <;> simp [workStep, hw, hr] at hwork
    | drainArm r => simp [workStep, hw] at hwork
    | loadInflight => simp [workStep, hw] at hwork
    | sleep =>
        have halert : s.alertable = true := by rw [State.alertable, hw]
        exact Or.inr ⟨rfl, (h.drained (by rw [hw]; rfl)).1, hapcs halert⟩
    | exited => exact Or.inl rfl
  rcases hidle with hexited | ⟨harming, hreq, hapcs⟩
  · exact Or.inl hexited
  · by_cases hexited : s.worker = .exited
    · exact Or.inl hexited
    · right
      have harmed : s.armed = [] := by
        apply List.eq_nil_iff_forall_not_mem.mpr
        intro r hr
        have hstuck := hquiet.expire r
        simp [expireStep, hr, hexited] at hstuck
      simp only [State.inflight, State.toArm, hreq, hapcs, harmed, hpackets, harming,
        hreactors, weigh_nil]

theorem Inv.serviced {s : State} (h : Inv s) : s.Serviced where
  once r := by
    have hplace := h.place r
    have harmed := h.armed r
    have hle := s.pushed_le r
    omega
  exited hexit := by
    refine ⟨(h.drained (by rw [hexit]; rfl)).1, fun r hr => ?_⟩
    have hnone : s.inflight (single r) = 0 :=
      Nat.le_zero.mp ((s.inflight_single_le r).trans (h.gone hexit).le)
    obtain ⟨harms, hhandled⟩ := h.toLedger.settle hr hnone
    refine ⟨harms, ?_⟩
    by_contra hnot
    rw [not_or] at hnot
    have hhandling : s.handling (single r) = 0 := by
      apply weigh_eq_zero
      intro p hp
      cases p with
      | handle q =>
          apply single_of_ne
          rintro rfl
          exact hnot.2 (List.getElem?_of_mem hp)
      | _ => rfl
    omega
  quiet hquiet hwaiting r hr := by
    have hset := h.woken (List.mem_of_getElem? hr)
    obtain ⟨hplaces, hhandling⟩ := h.inflight_of_quiet hquiet hset hwaiting (single r)
    have hnone : s.inflight (single r) = 0 := by
      rcases hplaces with hexit | hnone
      · exact Nat.le_zero.mp ((s.inflight_single_le r).trans (h.gone hexit).le)
      · exact hnone
    obtain ⟨harms, hhandled⟩ := h.toLedger.settle hr hnone
    rw [hhandling, Nat.zero_add] at hhandled
    exact ⟨harms, hhandled⟩

/-! ## The service comes to rest -/

/-- A step of the worker, of a timer or of a reactor in its loop. -/
def Act.service : Act → Bool
  | .work | .apc | .expire _ | .react _ => true
  | _ => false

/-- The event is set, and the worker is in `process_requests`. -/
structure State.Deaf (s : State) : Prop where
  set : s.nonEmpty = true
  inside : s.worker.closing = false

/-- The steps of the service do not set the event. -/
theorem deaf_of_service {s s' : State} {act : Act} (hact : act.service = true)
    (hs : step s act = some s') (h : s'.Deaf) : s.Deaf := by
  obtain ⟨hset, hopen⟩ := h
  cases act with
  | work =>
      cases workStep_case hs with
      | pop hpc | empty hpc | woken hpc | arm hpc => exact ⟨hset, by rw [hpc]; rfl⟩
      | _ => cases hopen
  | apc =>
      cases apcStep_case hs with
      | expired => exact ⟨hset, (WorkerPc.closing_afterApc _).symm.trans hopen⟩
      | shutdown => cases hopen
  | expire r =>
      obtain ⟨-, rfl⟩ := expireStep_eq hs
      exact ⟨hset, hopen⟩
  | react k =>
      cases reactStep_case hs with
      | _ => exact ⟨hset, hopen⟩
  | _ => cases hact

def WorkerPc.rank : WorkerPc → ℕ
  | .pop => 3
  | .arm _ => 13
  | .wait | .drain => 2
  | .drainArm _ => 12
  | .loadInflight => 1
  | .sleep | .exited => 0

def ReactorPc.rank : ReactorPc → ℕ
  | .dequeued _ | .leave => 3
  | .handle _ => 2
  | _ => 0

/-- A bound on the steps that the service has left to do, unless the worker is deaf. -/
def State.rank (s : State) : ℕ :=
  12 * s.requests.length + s.worker.rank + 8 * s.armed.length + 6 * s.apcs.length +
    4 * s.packets.length + weigh ReactorPc.rank s.reactors

theorem workStep_rank {s s' : State} (hear : ¬ s.Deaf) (hs : workStep s = some s') :
    s'.rank < s.rank := by
  cases workStep_case hs with
  | pop hpc hreq | drain hpc hreq =>
      simp only [State.rank, WorkerPc.rank, hpc, hreq, List.length_cons]
      omega
  | arm hpc | drainArm hpc =>
      simp only [State.rank, State.arm, WorkerPc.rank, hpc, List.length_append,
        List.length_singleton]
      omega
  | empty hpc | drained hpc | sleep hpc | exit hpc =>
      simp only [State.rank, WorkerPc.rank, hpc]
      omega
  | woken hpc hset => exact absurd ⟨hset, by rw [hpc]; rfl⟩ hear

theorem WorkerPc.rank_afterApc_le (pc : WorkerPc) : pc.afterApc.rank ≤ pc.rank + 1 := by
  cases pc with
  | wait | sleep => exact Nat.le_refl _
  | _ => exact Nat.le_succ _

theorem apcStep_rank {s s' : State} (hs : apcStep s = some s') : s'.rank < s.rank := by
  cases apcStep_case hs with
  | expired halert hapcs =>
      have hworker := s.worker.rank_afterApc_le
      simp only [State.rank, hapcs, List.length_append, List.length_cons, List.length_nil]
      omega
  | shutdown halert hapcs =>
      have hdrain : WorkerPc.drain.rank = 2 := rfl
      simp only [State.rank, hapcs, hdrain, List.length_cons]
      omega

theorem expireStep_rank {s s' : State} {r : ℕ} (hs : expireStep s r = some s') :
    s'.rank < s.rank := by
  obtain ⟨⟨hmem, -⟩, rfl⟩ := expireStep_eq hs
  have hlen := List.length_erase_add_one hmem
  simp only [State.rank, List.length_append, List.length_singleton]
  omega

theorem reactStep_rank {s s' : State} {k : ℕ} (hs : reactStep s k = some s') :
    s'.rank < s.rank := by
  have hset : ∀ {old : ReactorPc}, s.reactors[k]? = some old → ∀ pc,
      weigh ReactorPc.rank (s.reactors.set k pc) + old.rank =
        weigh ReactorPc.rank s.reactors + pc.rank :=
    fun hk pc => weigh_set hk pc
  cases reactStep_case hs with
  | @dequeue p rest pc hk hpackets hpc =>
      have hset := hset hk pc
      have hpc : pc.rank = 3 := by
        rcases hpc with ⟨-, rfl⟩ | ⟨r, -, rfl⟩
        · rfl
        · rfl
      simp only [State.rank, State.goReactor, hpackets, List.length_cons] at hset ⊢
      omega
  | @removeInflight r hk =>
      have hset := hset hk (.handle r)
      simp only [State.rank, State.goReactor, ReactorPc.rank] at hset ⊢
      omega
  | handle hk =>
      have hset := hset hk .dequeue
      simp only [State.rank, State.goReactor, ReactorPc.rank] at hset ⊢
      omega
  | leave hk =>
      have hset := hset hk .outside
      simp only [State.rank, State.goReactor, ReactorPc.rank] at hset ⊢
      omega

/-- **Every step of the service is one of finitely many**, as long as the worker listens. -/
theorem service_run_length {s t : State} {acts : List Act} (hear : ¬ s.Deaf)
    (hacts : ∀ act ∈ acts, act.service = true) (hrun : system.run s acts = some t) :
    acts.length ≤ s.rank := by
  induction acts generalizing s with
  | nil => exact Nat.zero_le _
  | cons act acts ih =>
      obtain ⟨u, hu, hrest⟩ := Option.bind_eq_some_iff.mp hrun
      have hservice := hacts act List.mem_cons_self
      have hlen := ih (fun hdeaf => hear (deaf_of_service hservice hu hdeaf))
        (fun a ha => hacts a (List.mem_cons_of_mem act ha)) hrest
      have hless : u.rank < s.rank := by
        cases act with
        | work => exact workStep_rank hear hu
        | apc => exact apcStep_rank hu
        | expire r => exact expireStep_rank hu
        | react k => exact reactStep_rank hu
        | _ => cases hservice
      rw [List.length_cons]
      omega

/-! ## A worker that listens no more -/

/-- The request has not come to the completion port. -/
structure State.Undelivered (s : State) (r : ℕ) : Prop where
  packets : .request r ∉ s.packets
  dequeued : .dequeued r ∉ s.reactors
  handle : .handle r ∉ s.reactors
  handled : s.handled r = 0

/-- A deaf worker is alertable only in a wait for the mutex. -/
theorem State.Deaf.pop_of_alertable {s : State} (h : s.Deaf) (halert : s.alertable = true) :
    s.worker = .pop := by
  have hopen := h.inside
  cases hw : s.worker with
  | pop => rfl
  | wait => simp [State.alertable, hw, h.set] at halert
  | arm r => simp [State.alertable, hw] at halert
  | _ =>
      rw [hw] at hopen
      cases hopen

theorem not_mem_set {reactors : List ReactorPc} {k : ℕ} {p pc : ReactorPc} (hp : p ∉ reactors)
    (hne : p ≠ pc) : p ∉ reactors.set k pc := by
  intro hmem
  rcases List.mem_or_eq_of_mem_set hmem with hmem | heq
  · exact hp hmem
  · exact hne heq

theorem reactStep_undelivered {s s' : State} {k r : ℕ} (h : s.Undelivered r)
    (hs : reactStep s k = some s') : s'.Undelivered r := by
  cases reactStep_case hs with
  | dequeue hk hpackets hpc =>
      have hrest : ∀ {p rest}, s.packets = p :: rest → .request r ∉ rest := by
        intro p rest hpackets hmem
        exact h.packets (hpackets ▸ List.mem_cons_of_mem _ hmem)
      rcases hpc with ⟨rfl, rfl⟩ | ⟨q, rfl, rfl⟩
      · exact ⟨hrest hpackets, not_mem_set h.dequeued nofun, not_mem_set h.handle nofun, h.handled⟩
      · have hne : ReactorPc.dequeued r ≠ .dequeued q := by
          rintro ⟨⟩
          exact h.packets (hpackets ▸ List.mem_cons_self)
        exact ⟨hrest hpackets, not_mem_set h.dequeued hne, not_mem_set h.handle nofun, h.handled⟩
  | @removeInflight q hk =>
      have hne : ReactorPc.handle r ≠ .handle q := by
        rintro ⟨⟩
        exact h.dequeued (List.mem_of_getElem? hk)
      exact ⟨h.packets, not_mem_set h.dequeued nofun, not_mem_set h.handle hne, h.handled⟩
  | @handle q hk =>
      have hne : r ≠ q := by
        rintro rfl
        exact h.handle (List.mem_of_getElem? hk)
      exact ⟨h.packets, not_mem_set h.dequeued nofun, not_mem_set h.handle nofun,
        (update_of_ne hne _ _).trans h.handled⟩
  | leave => exact ⟨h.packets, not_mem_set h.dequeued nofun, not_mem_set h.handle nofun, h.handled⟩

theorem enterStep_undelivered {s s' : State} {k r : ℕ} {spurious : Bool} (h : s.Undelivered r)
    (hs : enterStep s k spurious = some s') : s'.Undelivered r := by
  cases enterStep_case hs with
  | _ => exact ⟨h.packets, not_mem_set h.dequeued nofun, not_mem_set h.handle nofun, h.handled⟩

/-- **A deaf worker stays deaf** until an APC runs, and posts nothing to the port meanwhile. -/
theorem step_deaf {s s' : State} {act : Act} (h : s.Deaf) (hact : act ≠ .apc)
    (hs : step s act = some s') : s'.Deaf ∧ ∀ r, s.Undelivered r → s'.Undelivered r := by
  cases act with
  | apc => exact absurd rfl hact
  | post r =>
      cases postStep_case hs with
      | test | addInflight | push => exact ⟨⟨h.set, h.inside⟩, fun _ hq => { hq with }⟩
      | setEvent => exact ⟨⟨rfl, h.inside⟩, fun _ hq => { hq with }⟩
  | work =>
      have hopen := h.inside
      cases workStep_case hs with
      | pop | empty | woken | arm => exact ⟨⟨h.set, rfl⟩, fun _ hq => { hq with }⟩
      | drained hpc | drain hpc | drainArm hpc | sleep hpc | exit hpc =>
          rw [hpc] at hopen
          cases hopen
  | expire r =>
      obtain ⟨-, rfl⟩ := expireStep_eq hs
      exact ⟨⟨h.set, h.inside⟩, fun _ hq => { hq with }⟩
  | enter k spurious =>
      have hdeaf : s'.Deaf := by
        cases enterStep_case hs with
        | _ => exact ⟨h.set, h.inside⟩
      exact ⟨hdeaf, fun _ hq => enterStep_undelivered hq hs⟩
  | react k =>
      have hdeaf : s'.Deaf := by
        cases reactStep_case hs with
        | _ => exact ⟨h.set, h.inside⟩
      exact ⟨hdeaf, fun _ hq => reactStep_undelivered hq hs⟩
  | shutdown =>
      cases shutdownStep_case hs with
      | post =>
          refine ⟨⟨h.set, h.inside⟩, fun r hq => { hq with packets := fun hmem => ?_ }⟩
          rcases List.mem_append.mp hmem with hmem | hmem
          · exact hq.packets hmem
          · cases List.mem_singleton.mp hmem
      | _ => exact ⟨⟨h.set, h.inside⟩, fun _ hq => { hq with }⟩

theorem run_deaf {s t : State} {acts : List Act} (h : s.Deaf) (hacts : .apc ∉ acts)
    (hrun : system.run s acts = some t) :
    t.Deaf ∧ ∀ r, s.Undelivered r → t.Undelivered r := by
  induction acts generalizing s with
  | nil =>
      cases hrun
      exact ⟨h, fun _ hr => hr⟩
  | cons act acts ih =>
      obtain ⟨u, hu, hrest⟩ := Option.bind_eq_some_iff.mp hrun
      rw [List.mem_cons, not_or] at hacts
      obtain ⟨hdeaf, hkeep⟩ := step_deaf h (Ne.symm hacts.1) hu
      obtain ⟨hdeaf', hkeep'⟩ := ih hdeaf hacts.2 hrest
      exact ⟨hdeaf', fun r hr => hkeep' r (hkeep r hr)⟩

/-! ## What the service comes to -/

/-- **Every accepted request is serviced once** if no post meets the end of the drain and the
worker listens. In every state reached by runs in which no post stands between its test of the
flag and its push when the drain finds the queue empty, fewer than `2 ^ 32` requests are in flight
when the worker tests their count, and no timer's APC runs in a wait for the mutex: no handler is
called twice, and the queue is empty once the worker has exited. Unless the event was set while
the worker was in `process_requests`, the worker, the timers and the reactors have only so many
steps to take until all accepted requests are armed and handled. If it was, then no APC runs but
in a wait of `pop` for the mutex, and until one does the worker stays where it is and no request
is handled that has not come to the port. -/
theorem serviced_of_settled (s : State) (h : system.ReachableUnder Settled s) :
    s.Serviced ∧
      (¬ s.Deaf → ∀ acts t, (∀ act ∈ acts, act.service = true) →
        system.run s acts = some t → acts.length ≤ s.rank) ∧
      (s.Deaf → (∀ t, step s .apc = some t → s.worker = .pop) ∧
        ∀ acts t, .apc ∉ acts → system.run s acts = some t →
          t.Deaf ∧ ∀ r, s.Undelivered r → t.handled r = 0) := by
  have hinv : Inv s := by
    apply h.invariant
    · rintro _ ⟨nPosts, nReactors, rfl⟩
      exact initial_inv nPosts nReactors
    · exact fun _ _ _ hi hok hs => step_inv hi hok hs
  refine ⟨hinv.serviced, fun hear acts t hacts hrun => service_run_length hear hacts hrun,
    fun hdeaf => ⟨fun t ht => ?_, fun acts t hacts hrun => ?_⟩⟩
  · apply hdeaf.pop_of_alertable
    cases apcStep_case ht with
    | expired halert | shutdown halert => exact halert
  · obtain ⟨hdeaf', hkeep⟩ := run_deaf hdeaf hacts hrun
    exact ⟨hdeaf', fun r hr => (hkeep r hr).handled⟩

/-- One request that is in the queue when the shutdown begins, and one that is denied. The push
sets the event when the worker has left `process_requests`. -/
def postedBeforeShutdown : List Act :=
  [.work, .enter 0 false, .enter 0 true, .post 0, .post 0, .post 0, .shutdown, .post 1, .shutdown,
    .apc, .work, .post 0, .work, .work, .work, .expire 0, .apc, .react 0, .react 0, .work,
    .react 0]

theorem serviced_of_settled_posted_before :
    ∃ s, system.ReachableUnder Settled s ∧ s.worker = .exited ∧
      s.posts = [.accepted, .denied] ∧ s.arms 0 = 1 ∧ s.handled 0 = 1 ∧ s.Serviced := by
  have hm : system.Meets Settled (initial 2 1) postedBeforeShutdown :=
    ⟨⟨nofun, nofun⟩, _, rfl, trivial, _, rfl, trivial, _, rfl, trivial, _, rfl, trivial, _, rfl,
      trivial, _, rfl, trivial, _, rfl, trivial, _, rfl, trivial, _, rfl, nofun, _, rfl,
      ⟨nofun, nofun⟩, _, rfl, trivial, _, rfl, ⟨nofun, nofun⟩, _, rfl,
      ⟨fun _ _ => by decide, nofun⟩, _, rfl, ⟨nofun, fun _ => by decide⟩, _, rfl,
      trivial, _, rfl, fun _ _ _ => ⟨nofun, nofun⟩, _, rfl, trivial, _, rfl, trivial, _, rfl,
      ⟨nofun, fun _ => by decide⟩, _, rfl, trivial, _, rfl, trivial⟩
  have h0 : system.ReachableUnder Settled (initial 2 1) := .init ⟨2, 1, rfl⟩
  have hs := h0.run hm rfl
  exact ⟨_, hs, rfl, rfl, rfl, rfl, (serviced_of_settled _ hs).1⟩

end Coroutines.TimerService
