import Coroutines.TimerService.Basic

/-!
# The ledger of the timer service

Where a request can be, from its push to its completion handler, and what the count of
requests in flight comes to.
-/

namespace Coroutines.TimerService

open Tally Function

/-! ## Where the requests are

A weight `f` for requests is added up over the places where a request can be. With the weight
that is one everywhere this counts requests, and with the weight of one request it counts how
often that request is there. -/

def WorkerPc.arming (f : ℕ → ℕ) : WorkerPc → ℕ
  | .arm r | .drainArm r => f r
  | _ => 0

def Apc.weight (f : ℕ → ℕ) : Apc → ℕ
  | .expired r => f r
  | .shutdown => 0

def Packet.weight (f : ℕ → ℕ) : Packet → ℕ
  | .request r => f r
  | .shutdown => 0

def ReactorPc.inflight (f : ℕ → ℕ) : ReactorPc → ℕ
  | .dequeued r => f r
  | _ => 0

def ReactorPc.handling (f : ℕ → ℕ) : ReactorPc → ℕ
  | .handle r => f r
  | _ => 0

/-- Requests that are pushed and not armed yet. -/
def State.toArm (s : State) (f : ℕ → ℕ) : ℕ := weigh f s.requests + s.worker.arming f

/-- Requests that are pushed and not taken off the count yet. -/
def State.inflight (s : State) (f : ℕ → ℕ) : ℕ :=
  s.toArm f + weigh f s.armed + weigh (Apc.weight f) s.apcs + weigh (Packet.weight f) s.packets +
    weigh (ReactorPc.inflight f) s.reactors

/-- Requests whose completion handler is about to be called. -/
def State.handling (s : State) (f : ℕ → ℕ) : ℕ := weigh (ReactorPc.handling f) s.reactors

/-- The weight of one request. -/
def single (r : ℕ) : ℕ → ℕ := fun q => if q = r then 1 else 0

/-- The post has counted its request and not pushed it. -/
def PostPc.pushing : PostPc → ℕ
  | .push => 1
  | _ => 0

/-- The post has put its request on the queue. -/
def PostPc.pushed : PostPc → ℕ
  | .setEvent | .accepted => 1
  | _ => 0

/-- One if the request was put on the queue. -/
def State.pushed (s : State) (r : ℕ) : ℕ := (s.posts[r]?).elim 0 PostPc.pushed

@[simp] theorem single_self (r : ℕ) : single r r = 1 := if_pos rfl

@[simp] theorem single_of_ne {q r : ℕ} (h : q ≠ r) : single r q = 0 := if_neg h

theorem State.pushed_eq {s : State} {r : ℕ} {p : PostPc} (h : s.posts[r]? = some p) :
    s.pushed r = p.pushed := by
  rw [State.pushed, h]
  rfl

theorem State.pushed_congr {s t : State} {r : ℕ} (h : t.posts[r]? = s.posts[r]?) :
    t.pushed r = s.pushed r := by
  rw [State.pushed, h]
  rfl

theorem State.pushed_le (s : State) (r : ℕ) : s.pushed r ≤ 1 := by
  unfold State.pushed
  rcases s.posts[r]? with _ | p
  · exact Nat.zero_le 1
  · cases p <;> decide

/-- **The ledger.** Every request that was pushed is in one place, and was armed unless it waits
for it; the count is what is in flight, up to the wrap of its word. -/
structure Ledger (s : State) : Prop where
  place : ∀ r, s.inflight (single r) + s.handling (single r) + s.handled r = s.pushed r
  armed : ∀ r, s.toArm (single r) + s.arms r = s.pushed r
  count : s.nInflightTimers =
    BitVec.ofNat 32 (weigh PostPc.pushing s.posts + s.inflight fun _ => 1)

theorem initial_pushed (nPosts nReactors r : ℕ) : (initial nPosts nReactors).pushed r = 0 := by
  rcases hr : (initial nPosts nReactors).posts[r]? with _ | p
  · rw [State.pushed, hr, Option.elim_none]
  · rw [State.pushed_eq hr, List.eq_of_mem_replicate (List.mem_of_getElem? hr)]
    rfl

theorem initial_ledger (nPosts nReactors : ℕ) : Ledger (initial nPosts nReactors) := by
  have hposts : ∀ p ∈ (initial nPosts nReactors).posts, p = .idle :=
    fun p hp => List.eq_of_mem_replicate hp
  have hreactors : ∀ p ∈ (initial nPosts nReactors).reactors, p = .outside :=
    fun p hp => List.eq_of_mem_replicate hp
  have hnone : ∀ f, (initial nPosts nReactors).inflight f = 0 ∧
      (initial nPosts nReactors).handling f = 0 := by
    intro f
    constructor
    · refine (Nat.zero_add _).trans (weigh_eq_zero fun p hp => ?_)
      rw [hreactors p hp]
      rfl
    · refine weigh_eq_zero fun p hp => ?_
      rw [hreactors p hp]
      rfl
  have hpushed := initial_pushed nPosts nReactors
  constructor
  case place =>
    intro r
    rw [(hnone _).1, (hnone _).2, hpushed]
    rfl
  case armed =>
    intro r
    rw [hpushed]
    rfl
  case count =>
    rw [(hnone _).1, weigh_eq_zero fun p hp => by rw [hposts p hp]; rfl]
    rfl

/-! ## What each step moves -/

/-- No request has been counted, pushed or finished; requests may have changed places. -/
structure Moved (s s' : State) : Prop where
  inflight : ∀ f, s'.inflight f = s.inflight f
  handling : ∀ f, s'.handling f = s.handling f
  armed : ∀ r, s'.toArm (single r) + s'.arms r = s.toArm (single r) + s.arms r
  pushing : weigh PostPc.pushing s'.posts = weigh PostPc.pushing s.posts
  pushed : ∀ r, s'.pushed r = s.pushed r
  handled : s'.handled = s.handled
  count : s'.nInflightTimers = s.nInflightTimers

theorem Ledger.moved {s s' : State} (h : Ledger s) (hm : Moved s s') : Ledger s' where
  place r := by
    rw [hm.inflight, hm.handling, hm.handled, hm.pushed]
    exact h.place r
  armed r := by
    rw [hm.armed, hm.pushed]
    exact h.armed r
  count := by
    rw [hm.count, hm.pushing, hm.inflight]
    exact h.count

/-- Arming a request puts it behind the armed ones. -/
theorem arm_moved {s : State} {r : ℕ} {pc : WorkerPc} (hs : ∀ f, s.worker.arming f = f r)
    (hpc : ∀ f, pc.arming f = 0) : Moved s (s.arm r pc) := by
  constructor
  case inflight =>
    intro f
    simp only [State.inflight, State.toArm, State.arm, weigh_append, weigh_cons, weigh_nil, hs, hpc]
    omega
  case armed =>
    intro q
    simp only [State.toArm, State.arm, hs, hpc]
    by_cases hq : r = q
    · subst hq
      rw [update_self, single_self]
      omega
    · rw [update_of_ne (Ne.symm hq), single_of_ne hq]
  case handling => exact fun _ => rfl
  case pushing => rfl
  case pushed => exact fun _ => rfl
  case handled => rfl
  case count => rfl

/-- The worker goes on with no request in its hands. -/
theorem goWorker_moved {s : State} {pc : WorkerPc} (hs : ∀ f, s.worker.arming f = 0)
    (hpc : ∀ f, pc.arming f = 0) : Moved s { s with worker := pc } := by
  refine ⟨fun f => ?_, fun _ => rfl, fun q => ?_, rfl, fun _ => rfl, rfl, rfl⟩
  · simp only [State.inflight, State.toArm, hs, hpc]
  · simp only [State.toArm, hs, hpc]

/-- The worker takes the oldest request from the queue. -/
theorem take_moved {s : State} {r : ℕ} {rest : List ℕ} {pc : WorkerPc}
    (hreq : s.requests = r :: rest) (hs : ∀ f, s.worker.arming f = 0)
    (hpc : ∀ f, pc.arming f = f r) : Moved s { s with requests := rest, worker := pc } := by
  refine ⟨fun f => ?_, fun _ => rfl, fun q => ?_, rfl, fun _ => rfl, rfl, rfl⟩
  · simp only [State.inflight, State.toArm, hs, hpc, hreq, weigh_cons]
    omega
  · simp only [State.toArm, hs, hpc, hreq, weigh_cons]
    omega

theorem workStep_moved {s s' : State} (hs : workStep s = some s') : Moved s s' := by
  have harming : ∀ pc n f, s.worker = pc → pc.arming f = n → s.worker.arming f = n := by
    rintro pc n f rfl h
    exact h
  cases workStep_case hs with
  | pop hpc hreq => exact take_moved hreq (fun f => harming _ _ f hpc rfl) fun _ => rfl
  | empty hpc | woken hpc =>
      exact goWorker_moved (fun f => harming _ _ f hpc rfl) fun _ => rfl
  | arm hpc => exact arm_moved (fun f => harming _ _ f hpc rfl) fun _ => rfl
  | drained hpc => exact goWorker_moved (fun f => harming _ _ f hpc rfl) fun _ => rfl
  | drain hpc hreq => exact take_moved hreq (fun f => harming _ _ f hpc rfl) fun _ => rfl
  | drainArm hpc => exact arm_moved (fun f => harming _ _ f hpc rfl) fun _ => rfl
  | sleep hpc => exact goWorker_moved (fun f => harming _ _ f hpc rfl) fun _ => rfl
  | exit hpc => exact goWorker_moved (fun f => harming _ _ f hpc rfl) fun _ => rfl

theorem State.arming_of_alertable {s : State} (h : s.alertable = true) (f : ℕ → ℕ) :
    s.worker.arming f = 0 := by
  unfold State.alertable at h
  split at h
  · rename_i hpc
    rw [hpc]
    rfl
  · rename_i hpc
    rw [hpc]
    rfl
  · rename_i hpc
    rw [hpc]
    rfl
  · rename_i hpc
    rw [hpc]
    rfl
  · cases h

theorem WorkerPc.arming_afterApc {pc : WorkerPc} {f : ℕ → ℕ} (h : pc.arming f = 0) :
    pc.afterApc.arming f = 0 := by
  cases pc with
  | wait | sleep => rfl
  | _ => exact h

theorem apcStep_moved {s s' : State} (hs : apcStep s = some s') : Moved s s' := by
  cases apcStep_case hs with
  | expired halert hapcs =>
      have hold := State.arming_of_alertable halert
      have hnew := fun f => WorkerPc.arming_afterApc (hold f)
      refine ⟨fun f => ?_, fun _ => rfl, fun q => ?_, rfl, fun _ => rfl, rfl, rfl⟩
      · simp only [State.inflight, State.toArm, hold, hnew, hapcs, weigh_append, weigh_cons,
          weigh_nil, Apc.weight, Packet.weight]
        omega
      · simp only [State.toArm, hold, hnew]
  | shutdown halert hapcs =>
      have hold := State.arming_of_alertable halert
      have hdrain : ∀ f, WorkerPc.drain.arming f = 0 := fun _ => rfl
      refine ⟨fun f => ?_, fun _ => rfl, fun q => ?_, rfl, fun _ => rfl, rfl, rfl⟩
      · simp only [State.inflight, State.toArm, hold, hdrain, hapcs, weigh_cons, Apc.weight]
        omega
      · simp only [State.toArm, hold, hdrain]

theorem expireStep_moved {s s' : State} {r : ℕ} (hs : expireStep s r = some s') :
    Moved s s' := by
  obtain ⟨⟨hmem, -⟩, rfl⟩ := expireStep_eq hs
  refine ⟨fun f => ?_, fun _ => rfl, fun _ => rfl, rfl, fun _ => rfl, rfl, rfl⟩
  have herase := weigh_erase (w := f) hmem
  simp only [State.inflight, State.toArm, weigh_append, weigh_cons, weigh_nil, Apc.weight]
  omega

/-- A reactor moves that holds no request before or after. -/
theorem goReactor_moved {s : State} {k : ℕ} {old pc : ReactorPc} {word : BitVec 32}
    (hk : s.reactors[k]? = some old)
    (hold : ∀ f, old.inflight f = 0 ∧ old.handling f = 0)
    (hpc : ∀ f, pc.inflight f = 0 ∧ pc.handling f = 0) :
    Moved s ({ s with nActiveReactors := word }.goReactor k pc) := by
  constructor
  case inflight =>
    intro f
    have hset := weigh_set (w := ReactorPc.inflight f) hk pc
    rw [(hold f).1, (hpc f).1] at hset
    simp only [State.inflight, State.toArm, State.goReactor]
    omega
  case handling =>
    intro f
    have hset := weigh_set (w := ReactorPc.handling f) hk pc
    rw [(hold f).2, (hpc f).2] at hset
    exact hset
  case armed => exact fun _ => rfl
  case pushing => rfl
  case pushed => exact fun _ => rfl
  case handled => rfl
  case count => rfl

/-- A reactor takes the oldest packet from the port. -/
theorem dequeue_moved {s : State} {k : ℕ} {p : Packet} {rest : List Packet} {pc : ReactorPc}
    (hk : s.reactors[k]? = some .dequeue) (hpackets : s.packets = p :: rest)
    (hpc : p = .shutdown ∧ pc = .leave ∨ ∃ r, p = .request r ∧ pc = .dequeued r) :
    Moved s ({ s with packets := rest }.goReactor k pc) := by
  have hsame : ∀ f, pc.inflight f = p.weight f ∧ pc.handling f = 0 := by
    intro f
    rcases hpc with ⟨rfl, rfl⟩ | ⟨r, rfl, rfl⟩
    · exact ⟨rfl, rfl⟩
    · exact ⟨rfl, rfl⟩
  refine ⟨fun f => ?_, fun f => ?_, fun _ => rfl, rfl, fun _ => rfl, rfl, rfl⟩
  · have hset := weigh_set (w := ReactorPc.inflight f) hk pc
    have hold : ReactorPc.dequeue.inflight f = 0 := rfl
    rw [(hsame f).1, hold] at hset
    simp only [State.inflight, State.toArm, State.goReactor, hpackets, weigh_cons]
    omega
  · have hset := weigh_set (w := ReactorPc.handling f) hk pc
    rw [(hsame f).2] at hset
    exact hset

theorem enterStep_moved {s s' : State} {k : ℕ} {spurious : Bool}
    (hs : enterStep s k spurious = some s') : Moved s s' := by
  cases enterStep_case hs with
  | load hk => exact goReactor_moved hk (fun _ => ⟨rfl, rfl⟩) fun _ => ⟨rfl, rfl⟩
  | refused hk => exact goReactor_moved hk (fun _ => ⟨rfl, rfl⟩) fun _ => ⟨rfl, rfl⟩
  | increment hk => exact goReactor_moved hk (fun _ => ⟨rfl, rfl⟩) fun _ => ⟨rfl, rfl⟩
  | enter hk => exact goReactor_moved hk (fun _ => ⟨rfl, rfl⟩) fun _ => ⟨rfl, rfl⟩

/-- A step that leaves the weights of the APCs and of the packets moves no request. -/
theorem moved_of_weights {s t : State} (hrequests : t.requests = s.requests)
    (hworker : t.worker = s.worker) (harmed : t.armed = s.armed)
    (hreactors : t.reactors = s.reactors) (hposts : t.posts = s.posts) (harms : t.arms = s.arms)
    (hhandled : t.handled = s.handled) (hcount : t.nInflightTimers = s.nInflightTimers)
    (hapcs : ∀ f, weigh (Apc.weight f) t.apcs = weigh (Apc.weight f) s.apcs)
    (hpackets : ∀ f, weigh (Packet.weight f) t.packets = weigh (Packet.weight f) s.packets) :
    Moved s t := by
  constructor
  case inflight =>
    intro f
    rw [State.inflight, State.toArm, hrequests, hworker, harmed, hapcs, hpackets, hreactors]
    rfl
  case handling =>
    intro f
    rw [State.handling, hreactors]
    rfl
  case armed =>
    intro r
    rw [State.toArm, hrequests, hworker, harms]
    rfl
  case pushing => rw [hposts]
  case pushed =>
    intro r
    exact State.pushed_congr (by rw [hposts])
  case handled => exact hhandled
  case count => exact hcount

theorem shutdownStep_moved {s s' : State} (hs : shutdownStep s = some s') : Moved s s' := by
  cases shutdownStep_case hs with
  | queueApc =>
      refine moved_of_weights rfl rfl rfl rfl rfl rfl rfl rfl (fun f => ?_) fun _ => rfl
      exact weigh_append _
  | post =>
      refine moved_of_weights rfl rfl rfl rfl rfl rfl rfl rfl (fun _ => rfl) fun f => ?_
      exact weigh_append _
  | _ => exact moved_of_weights rfl rfl rfl rfl rfl rfl rfl rfl (fun _ => rfl) fun _ => rfl

/-! ## Steps that change the ledger -/

/-- One post moves. -/
theorem pushed_goPost {s : State} {q : ℕ} {old : PostPc} (hq : s.posts[q]? = some old) (pc : PostPc)
    (r : ℕ) : (s.goPost q pc).pushed r + old.pushed * single q r =
      s.pushed r + pc.pushed * single q r := by
  have hlt := (List.getElem?_eq_some_iff.mp hq).1
  by_cases hr : r = q
  · subst hr
    have hnew : (s.posts.set r pc)[r]? = some pc := List.getElem?_set_self hlt
    rw [State.pushed_eq (s := s.goPost r pc) hnew, State.pushed_eq hq, single_self, Nat.mul_one,
      Nat.mul_one, Nat.add_comm]
  · have hnew : (s.posts.set q pc)[r]? = s.posts[r]? := List.getElem?_set_ne (Ne.symm hr)
    rw [State.pushed_congr (s := s) (t := s.goPost q pc) hnew, single_of_ne hr, Nat.mul_zero,
      Nat.mul_zero]

/-- A post that has pushed its request as it has before. -/
theorem pushed_goPost_of_eq {s : State} {q : ℕ} {old pc : PostPc} (hq : s.posts[q]? = some old)
    (hpc : pc.pushed = old.pushed) (r : ℕ) : (s.goPost q pc).pushed r = s.pushed r := by
  have hone := pushed_goPost hq pc r
  rw [hpc] at hone
  exact Nat.add_right_cancel hone

theorem single_comm (q r : ℕ) : single q r = single r q := by
  unfold single
  split_ifs with h₁ h₂ h₂
  · rfl
  · exact absurd h₁.symm h₂
  · exact absurd h₂.symm h₁
  · rfl

/-- A request is counted before it is pushed. -/
theorem Ledger.addInflight {s : State} (h : Ledger s) {r : ℕ}
    (hr : s.posts[r]? = some .addInflight) :
    Ledger ({ s with nInflightTimers := s.nInflightTimers + 1 }.goPost r .push) := by
  have hpushed : ({ s with nInflightTimers := s.nInflightTimers + 1 }.goPost r .push).pushed =
      s.pushed := funext (pushed_goPost_of_eq (s := { s with nInflightTimers := _ }) hr rfl)
  constructor
  case place =>
    intro q
    rw [hpushed]
    exact h.place q
  case armed =>
    intro q
    rw [hpushed]
    exact h.armed q
  case count =>
    have hset := weigh_set (w := PostPc.pushing) hr .push
    have hpush : PostPc.push.pushing = 1 := rfl
    have hadd : PostPc.addInflight.pushing = 0 := rfl
    have hsucc : (weigh PostPc.pushing (s.posts.set r .push) + s.inflight fun _ => 1) =
        (weigh PostPc.pushing s.posts + s.inflight fun _ => 1) + 1 := by omega
    show s.nInflightTimers + 1 =
      BitVec.ofNat 32 (weigh PostPc.pushing (s.posts.set r .push) + s.inflight fun _ => 1)
    rw [hsucc, BitVec.ofNat_add, ← h.count]
    rfl

/-- The pushed request is in flight. -/
theorem Ledger.push {s : State} (h : Ledger s) {r : ℕ} (hr : s.posts[r]? = some .push) :
    Ledger ({ s with requests := s.requests ++ [r] }.goPost r .setEvent) := by
  have hpushed : ∀ q, ({ s with requests := s.requests ++ [r] }.goPost r .setEvent).pushed q =
      s.pushed q + single q r := by
    intro q
    have hone := pushed_goPost (s := { s with requests := s.requests ++ [r] }) hr .setEvent q
    simp only [PostPc.pushed, Nat.zero_mul, Nat.one_mul, Nat.add_zero] at hone
    rw [single_comm q r]
    exact hone
  have htoArm : ∀ f, ({ s with requests := s.requests ++ [r] }.goPost r .setEvent).toArm f =
      s.toArm f + f r := by
    intro f
    simp only [State.toArm, State.goPost, weigh_append, weigh_cons, weigh_nil]
    omega
  have hinflight : ∀ f, ({ s with requests := s.requests ++ [r] }.goPost r
      .setEvent).inflight f = s.inflight f + f r := by
    intro f
    rw [State.inflight, htoArm, State.inflight]
    simp only [State.goPost]
    omega
  constructor
  case place =>
    intro q
    have hplace := h.place q
    rw [hpushed, hinflight]
    show s.inflight (single q) + single q r + s.handling (single q) + s.handled q = _
    omega
  case armed =>
    intro q
    have harmed := h.armed q
    rw [hpushed, htoArm]
    show s.toArm (single q) + single q r + s.arms q = _
    omega
  case count =>
    have hset := weigh_set (w := PostPc.pushing) hr .setEvent
    have hpush : PostPc.push.pushing = 1 := rfl
    have hdone : PostPc.setEvent.pushing = 0 := rfl
    rw [hinflight]
    show s.nInflightTimers =
      BitVec.ofNat 32 (weigh PostPc.pushing (s.posts.set r .setEvent) + _)
    rw [h.count]
    congr 1
    omega

/-- A post moves that has nothing to push or has pushed. -/
theorem goPost_moved {s : State} {r : ℕ} {old pc : PostPc} {b : Bool}
    (hr : s.posts[r]? = some old) (hpushed : pc.pushed = old.pushed)
    (hpushing : pc.pushing = old.pushing) :
    Moved s ({ s with nonEmpty := b }.goPost r pc) := by
  refine ⟨fun _ => rfl, fun _ => rfl, fun _ => rfl, ?_, fun q => ?_, rfl, rfl⟩
  · have hset := weigh_set (w := PostPc.pushing) hr pc
    rw [hpushing] at hset
    exact Nat.add_right_cancel hset
  · exact pushed_goPost_of_eq (s := { s with nonEmpty := b }) hr hpushed q

/-- **A post** counts its request and puts it on the queue. -/
theorem postStep_ledger {s s' : State} {r : ℕ} (h : Ledger s) (hs : postStep s r = some s') :
    Ledger s' := by
  cases postStep_case hs with
  | test hr =>
      apply h.moved
      apply goPost_moved (b := s.nonEmpty) hr
      · split <;> rfl
      · split <;> rfl
  | addInflight hr => exact h.addInflight hr
  | push hr => exact h.push hr
  | setEvent hr => exact h.moved (goPost_moved hr rfl rfl)

/-- The request that was dequeued is taken off the count. -/
theorem Ledger.removeInflight {s : State} (h : Ledger s) {k r : ℕ}
    (hk : s.reactors[k]? = some (.dequeued r)) :
    Ledger ({ s with nInflightTimers := s.nInflightTimers - 1 }.goReactor k (.handle r)) := by
  have hinflight : ∀ f, ({ s with nInflightTimers := s.nInflightTimers - 1 }.goReactor k
      (.handle r)).inflight f + f r = s.inflight f := by
    intro f
    have hset := weigh_set (w := ReactorPc.inflight f) hk (.handle r)
    have hnew : (ReactorPc.handle r).inflight f = 0 := rfl
    have hold : (ReactorPc.dequeued r).inflight f = f r := rfl
    simp only [State.inflight, State.toArm, State.goReactor]
    omega
  have hhandling : ∀ f, ({ s with nInflightTimers := s.nInflightTimers - 1 }.goReactor k
      (.handle r)).handling f = s.handling f + f r :=
    fun f => weigh_set (w := ReactorPc.handling f) hk (.handle r)
  constructor
  case place =>
    intro q
    have hplace := h.place q
    have hq := hinflight (single q)
    rw [hhandling]
    show _ + (s.handling (single q) + single q r) + s.handled q = s.pushed q
    omega
  case armed => exact h.armed
  case count =>
    have hone := hinflight fun _ => 1
    show s.nInflightTimers - 1 = BitVec.ofNat 32 (weigh PostPc.pushing s.posts + _)
    rw [h.count, ← hone, ← Nat.add_assoc, BitVec.ofNat_add _ 1]
    exact BitVec.add_sub_cancel _ _

/-- The completion handler of the request is called. -/
theorem Ledger.handle {s : State} (h : Ledger s) {k r : ℕ}
    (hk : s.reactors[k]? = some (.handle r)) :
    Ledger ({ s with handled := update s.handled r (s.handled r + 1) }.goReactor k .dequeue) := by
  have hhandling : ∀ f, ({ s with handled := update s.handled r (s.handled r + 1) }.goReactor k
      .dequeue).handling f + f r = s.handling f :=
    fun f => weigh_set (w := ReactorPc.handling f) hk .dequeue
  have hinflight : ∀ f, ({ s with handled := update s.handled r (s.handled r + 1) }.goReactor k
      .dequeue).inflight f = s.inflight f := by
    intro f
    have hset := weigh_set (w := ReactorPc.inflight f) hk .dequeue
    have hnew : ReactorPc.dequeue.inflight f = 0 := rfl
    have hold : (ReactorPc.handle r).inflight f = 0 := rfl
    simp only [State.inflight, State.toArm, State.goReactor]
    omega
  constructor
  case place =>
    intro q
    have hplace := h.place q
    have hq := hhandling (single q)
    rw [hinflight]
    show s.inflight (single q) + _ + update s.handled r (s.handled r + 1) q = s.pushed q
    by_cases hqr : q = r
    · subst hqr
      rw [single_self] at hq
      rw [update_self]
      omega
    · rw [single_of_ne (Ne.symm hqr)] at hq
      rw [update_of_ne hqr]
      omega
  case armed => exact h.armed
  case count =>
    rw [hinflight]
    exact h.count

/-- **A reactor** takes a request off the count before it calls the handler. -/
theorem reactStep_ledger {s s' : State} {k : ℕ} (h : Ledger s) (hs : reactStep s k = some s') :
    Ledger s' := by
  cases reactStep_case hs with
  | dequeue hk hpackets hpc => exact h.moved (dequeue_moved hk hpackets hpc)
  | removeInflight hk => exact h.removeInflight hk
  | handle hk => exact h.handle hk
  | leave hk => exact h.moved (goReactor_moved hk (fun _ => ⟨rfl, rfl⟩) fun _ => ⟨rfl, rfl⟩)

theorem step_ledger {s s' : State} {act : Act} (h : Ledger s) (hs : step s act = some s') :
    Ledger s' := by
  cases act with
  | post r => exact postStep_ledger h hs
  | work => exact h.moved (workStep_moved hs)
  | apc => exact h.moved (apcStep_moved hs)
  | expire r => exact h.moved (expireStep_moved hs)
  | enter k spurious => exact h.moved (enterStep_moved hs)
  | react k => exact reactStep_ledger h hs
  | shutdown => exact h.moved (shutdownStep_moved hs)

end Coroutines.TimerService
