import Coroutines.TimerService.Ledger

/-!
# The gate of the service

`shutdown` sets the closed flag before it queues the APC that takes the worker out of
`process_requests`. Whatever the worker does after that, it does with the flag set, and once it
has found the queue empty no request comes to it but from a post that tested the flag before.
-/

namespace Coroutines.TimerService

open Transition Tally

/-- The post is between its test of the flag and its push. -/
def PostPc.between : PostPc → Bool
  | .addInflight | .push => true
  | _ => false

/-- The worker has left `process_requests`. -/
def WorkerPc.closing : WorkerPc → Bool
  | .drain | .drainArm _ | .loadInflight | .sleep | .exited => true
  | _ => false

/-- The worker has found the queue empty. -/
def WorkerPc.drained : WorkerPc → Bool
  | .loadInflight | .sleep | .exited => true
  | _ => false

/-- `shutdown` has not queued its APC. -/
def ShutdownPc.early : ShutdownPc → Bool
  | .idle | .queueApc => true
  | _ => false

theorem WorkerPc.closing_of_drained {pc : WorkerPc} (h : pc.drained = true) :
    pc.closing = true := by
  cases pc <;> first | rfl | cases h

/-- An APC of a timer takes the worker neither into `on_shutdown_request` nor out of it. -/
@[simp] theorem WorkerPc.closing_afterApc (pc : WorkerPc) : pc.afterApc.closing = pc.closing := by
  cases pc <;> rfl

@[simp] theorem WorkerPc.drained_afterApc (pc : WorkerPc) : pc.afterApc.drained = pc.drained := by
  cases pc <;> rfl

theorem pushing_eq_zero {posts : List PostPc} (h : ∀ p ∈ posts, p.between = false) :
    weigh PostPc.pushing posts = 0 := by
  refine weigh_eq_zero fun p hp => ?_
  have hp := h p hp
  cases p <;> first | rfl | cases hp

/-- A worker that is closing has run the APC of `shutdown`, and the flag was set before. -/
structure Gate (s : State) : Prop where
  early : s.shutdown.early = true → Apc.shutdown ∉ s.apcs ∧ s.worker.closing = false
  flag : s.shutdown ≠ .idle → closed s.nActiveReactors

theorem initial_gate (nPosts nReactors : ℕ) : Gate (initial nPosts nReactors) where
  early _ := ⟨List.not_mem_nil, rfl⟩
  flag h := absurd rfl h

theorem Gate.late {s : State} (h : Gate s) (hw : s.worker.closing = true) :
    s.shutdown.early = false := by
  apply Bool.eq_false_iff.mpr
  intro hearly
  have hopen := (h.early hearly).2
  rw [hw] at hopen
  cases hopen

theorem Gate.not_idle {s : State} (h : Gate s) (hw : s.worker.closing = true) :
    s.shutdown ≠ .idle := by
  intro hidle
  have hlate := h.late hw
  rw [hidle] at hlate
  cases hlate

theorem Gate.closed {s : State} (h : Gate s) (hw : s.worker.closing = true) :
    closed s.nActiveReactors :=
  h.flag (h.not_idle hw)

/-! ## What each step keeps -/

/-- A step on which `shutdown` stands still. -/
theorem Gate.keep {s s' : State} (h : Gate s) (hshutdown : s'.shutdown = s.shutdown)
    (hapcs : Apc.shutdown ∈ s'.apcs → Apc.shutdown ∈ s.apcs)
    (hworker : s'.worker.closing = true → s.worker.closing = true)
    (hflag : TimerService.closed s.nActiveReactors → TimerService.closed s'.nActiveReactors) :
    Gate s' where
  early hearly := by
    rw [hshutdown] at hearly
    obtain ⟨hapc, hopen⟩ := h.early hearly
    refine ⟨fun hmem => hapc (hapcs hmem), Bool.eq_false_iff.mpr fun hw => ?_⟩
    rw [hworker hw] at hopen
    cases hopen
  flag hne := by
    rw [hshutdown] at hne
    exact hflag (h.flag hne)

theorem postStep_gate {s s' : State} {r : ℕ} (h : Gate s) (hs : postStep s r = some s') :
    Gate s' := by
  cases postStep_case hs with
  | _ => exact h.keep rfl id id id

theorem workStep_gate {s s' : State} (h : Gate s) (hs : workStep s = some s') : Gate s' := by
  cases workStep_case hs with
  | pop | empty | woken | arm => exact h.keep rfl id nofun id
  | drained hpc | drain hpc | drainArm hpc | sleep hpc | exit hpc =>
      exact h.keep rfl id (fun _ => by rw [hpc]; rfl) id

theorem apcStep_gate {s s' : State} (h : Gate s) (hs : apcStep s = some s') : Gate s' := by
  cases apcStep_case hs with
  | expired halert hapcs =>
      refine h.keep rfl (fun hmem => ?_) (fun hw => ?_) id
      · rw [hapcs]
        exact List.mem_cons_of_mem _ hmem
      · rw [← WorkerPc.closing_afterApc]
        exact hw
  | shutdown halert hapcs =>
      refine ⟨fun hearly => absurd ?_ (h.early hearly).1, h.flag⟩
      rw [hapcs]
      exact List.mem_cons_self

/-- The posts, the queue and the worker stand still. -/
structure Aside (s s' : State) : Prop where
  posts : s'.posts = s.posts
  requests : s'.requests = s.requests
  worker : s'.worker = s.worker

/-- A reactor moves: the timers, the APCs and `shutdown` stand still too. -/
structure Within (s s' : State) : Prop extends Aside s s' where
  shutdown : s'.shutdown = s.shutdown
  armed : s'.armed = s.armed
  apcs : s'.apcs = s.apcs

theorem expireStep_aside {s s' : State} {r : ℕ} (hs : expireStep s r = some s') :
    Aside s s' ∧ s'.shutdown = s.shutdown := by
  obtain ⟨-, rfl⟩ := expireStep_eq hs
  exact ⟨⟨rfl, rfl, rfl⟩, rfl⟩

theorem enterStep_within {s s' : State} {k : ℕ} {spurious : Bool}
    (hs : enterStep s k spurious = some s') : Within s s' := by
  cases enterStep_case hs with
  | _ => exact ⟨⟨rfl, rfl, rfl⟩, rfl, rfl, rfl⟩

theorem reactStep_within {s s' : State} {k : ℕ} (hs : reactStep s k = some s') :
    Within s s' := by
  cases reactStep_case hs with
  | _ => exact ⟨⟨rfl, rfl, rfl⟩, rfl, rfl, rfl⟩

theorem shutdownStep_aside {s s' : State} (hs : shutdownStep s = some s') : Aside s s' := by
  cases shutdownStep_case hs with
  | _ => exact ⟨rfl, rfl, rfl⟩

theorem expireStep_gate {s s' : State} {r : ℕ} (h : Gate s) (hs : expireStep s r = some s') :
    Gate s' := by
  obtain ⟨-, rfl⟩ := expireStep_eq hs
  refine h.keep rfl (fun hmem => ?_) id id
  rcases List.mem_append.mp hmem with hmem | hmem
  · exact hmem
  · cases List.mem_singleton.mp hmem

theorem Gate.within {s s' : State} (h : Gate s) (hwithin : Within s s')
    (hflag : TimerService.closed s.nActiveReactors → TimerService.closed s'.nActiveReactors) :
    Gate s' := by
  refine h.keep hwithin.shutdown (fun hmem => ?_) (fun hw => ?_) hflag
  · rw [hwithin.apcs] at hmem
    exact hmem
  · rw [hwithin.worker] at hw
    exact hw

theorem enterStep_gate {s s' : State} {k : ℕ} {spurious : Bool} (h : Gate s)
    (hs : enterStep s k spurious = some s') : Gate s' := by
  apply h.within (enterStep_within hs)
  cases enterStep_case hs with
  | load | refused | enter => exact id
  | increment hk hopen hcas =>
      intro hflag
      rw [hcas] at hflag
      exact (closed_add _).mpr hflag

theorem reactStep_gate {s s' : State} {k : ℕ} (h : Gate s) (hs : reactStep s k = some s') :
    Gate s' := by
  apply h.within (reactStep_within hs)
  cases reactStep_case hs with
  | dequeue | removeInflight | handle => exact id
  | leave => exact (closed_sub _).mpr

theorem shutdownStep_gate {s s' : State} (h : Gate s) (hs : shutdownStep s = some s') :
    Gate s' := by
  cases shutdownStep_case hs with
  | setFlag hpc => exact ⟨fun _ => h.early (by rw [hpc]; rfl), fun _ => closed_or _⟩
  | queueApc hpc | waitWorker hpc | loadReactors hpc | finish hpc =>
      exact ⟨nofun, fun _ => h.flag (by simp [hpc])⟩
  | post hpc => exact ⟨nofun, fun _ => h.flag (by simp [hpc])⟩

theorem step_gate {s s' : State} {act : Act} (h : Gate s) (hs : step s act = some s') :
    Gate s' := by
  cases act with
  | post r => exact postStep_gate h hs
  | work => exact workStep_gate h hs
  | apc => exact apcStep_gate h hs
  | expire r => exact expireStep_gate h hs
  | enter k spurious => exact enterStep_gate h hs
  | react k => exact reactStep_gate h hs
  | shutdown => exact shutdownStep_gate h hs

/-! ## A queue that is drained -/

/-- Once the worker has found the queue empty it stays empty: no post is on its way to it. -/
structure Sealed (s : State) : Prop extends Ledger s, Gate s where
  drained : s.worker.drained = true → s.requests = [] ∧ ∀ p ∈ s.posts, p.between = false

theorem initial_sealed (nPosts nReactors : ℕ) : Sealed (initial nPosts nReactors) where
  toLedger := initial_ledger nPosts nReactors
  toGate := initial_gate nPosts nReactors
  drained h := by cases h

/-- A post that goes on is not on its way to the queue, or was before. -/
theorem between_goPost {s : State} {r : ℕ} {pc : PostPc} (h : ∀ p ∈ s.posts, p.between = false)
    (hpc : pc.between = false) : ∀ p ∈ (s.goPost r pc).posts, p.between = false := by
  intro p hp
  rcases List.mem_or_eq_of_mem_set hp with hp | rfl
  · exact h p hp
  · exact hpc

/-- The flag is up, so a post that tests it is denied; and none is further on its way. -/
theorem postStep_between {s s' : State} {r : ℕ} (hclosed : TimerService.closed s.nActiveReactors)
    (hposts : ∀ p ∈ s.posts, p.between = false) (hs : postStep s r = some s') :
    (s'.requests = s.requests ∧ ∀ p ∈ s'.posts, p.between = false) ∧
      ∀ f, s'.inflight f = s.inflight f := by
  cases postStep_case hs with
  | test hr =>
      rw [if_pos hclosed]
      exact ⟨⟨rfl, between_goPost hposts rfl⟩, fun _ => rfl⟩
  | addInflight hr | push hr => cases hposts _ (List.mem_of_getElem? hr)
  | setEvent hr => exact ⟨⟨rfl, between_goPost hposts rfl⟩, fun _ => rfl⟩

theorem postStep_sealed {s s' : State} {r : ℕ} (h : Sealed s) (hs : postStep s r = some s') :
    Sealed s' := by
  refine ⟨postStep_ledger h.toLedger hs, postStep_gate h.toGate hs, fun hw => ?_⟩
  have hworker : s'.worker = s.worker := by
    cases postStep_case hs with
    | _ => rfl
  rw [hworker] at hw
  obtain ⟨hreq, hposts⟩ := h.drained hw
  have hclosed := h.closed (WorkerPc.closing_of_drained hw)
  obtain ⟨⟨hsame, hposts'⟩, -⟩ := postStep_between hclosed hposts hs
  exact ⟨hsame.trans hreq, hposts'⟩

theorem workStep_sealed {s s' : State} (h : Sealed s)
    (hempty : s.worker = .drain → s.requests = [] → ∀ p ∈ s.posts, p.between = false)
    (hs : workStep s = some s') : Sealed s' := by
  refine ⟨h.toLedger.moved (workStep_moved hs), workStep_gate h.toGate hs, ?_⟩
  cases workStep_case hs with
  | pop | empty | woken | arm | drain | drainArm => exact nofun
  | drained hpc hreq => exact fun _ => ⟨hreq, hempty hpc hreq⟩
  | sleep hpc | exit hpc =>
      intro _
      apply h.drained
      rw [hpc]
      rfl

theorem apcStep_sealed {s s' : State} (h : Sealed s) (hs : apcStep s = some s') : Sealed s' := by
  refine ⟨h.toLedger.moved (apcStep_moved hs), apcStep_gate h.toGate hs, ?_⟩
  cases apcStep_case hs with
  | expired =>
      intro hw
      apply h.drained
      rw [← WorkerPc.drained_afterApc]
      exact hw
  | shutdown => exact nofun

theorem Sealed.aside {s s' : State} (h : Sealed s) (hledger : Ledger s') (hgate : Gate s')
    (haside : Aside s s') : Sealed s' where
  toLedger := hledger
  toGate := hgate
  drained hw := by
    rw [haside.worker] at hw
    rw [haside.requests, haside.posts]
    exact h.drained hw

/-- What the drain has found is kept, if no post is on its way to the queue when it finds it
empty. -/
theorem step_sealed {s s' : State} {act : Act} (h : Sealed s)
    (hempty : act = .work → s.worker = .drain → s.requests = [] →
      ∀ p ∈ s.posts, p.between = false)
    (hs : step s act = some s') : Sealed s' := by
  have hledger := step_ledger h.toLedger hs
  have hgate := step_gate h.toGate hs
  cases act with
  | post r => exact postStep_sealed h hs
  | work => exact workStep_sealed h (hempty rfl) hs
  | apc => exact apcStep_sealed h hs
  | expire r => exact h.aside hledger hgate (expireStep_aside hs).1
  | enter k spurious => exact h.aside hledger hgate (enterStep_within hs).toAside
  | react k => exact h.aside hledger hgate (reactStep_within hs).toAside
  | shutdown => exact h.aside hledger hgate (shutdownStep_aside hs)

end Coroutines.TimerService
