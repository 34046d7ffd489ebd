import Coroutines.Lib.Loop
import Coroutines.Lib.RingBuffer
import Coroutines.Lib.Tally
import Mathlib.Data.BitVec

/-!
# Throttled coroutines

`applications/map/throttler.hpp`, `scheduler.hpp` and `prefetch.hpp`, and their twins in
`applications/binary-search/coro_infra.hpp`. A throttler spawns lookup coroutines and
keeps their number below a limit; a coroutine that awaits a prefetch schedules itself and
transfers control to the oldest handle of the scheduler; one that completes raises the
limit, destroys its frame and returns to whoever resumed the chain.

What the coroutines compute is a parameter here: `Program.resume` runs a frame from one
suspension point to the next. A handle is the position of its frame in the order of
creation, and resuming a frame that is gone is undefined.
-/

namespace Coroutines.Throttler

open Loop Tally

/-! ## The model -/

/-- `StaticQueueScheduler`. -/
abbrev StaticQueueScheduler := RingBuffer ℕ

namespace StaticQueueScheduler

def schedule (s : StaticQueueScheduler) (handle : ℕ) : StaticQueueScheduler := s.push handle

def removeNextTask (s : StaticQueueScheduler) : Option ℕ × StaticQueueScheduler := s.pop

def tryRemoveNextTask (s : StaticQueueScheduler) : Option ℕ × StaticQueueScheduler :=
  s.tryPop

end StaticQueueScheduler

open StaticQueueScheduler

/-- The body of a kind of coroutine. -/
structure Program (τ ρ ω : Type) where
  /-- Run a frame up to its next suspension, or to its end with a result. -/
  resume : τ → Option (τ ⊕ ρ)
  /-- The callback that delivers a result. -/
  emit : ω → ρ → ω

/-- The coroutine frames, the scheduler, the throttler and what was delivered. -/
structure Exec (τ ω : Type) where
  /-- The frames by handle; `none` is a frame that was destroyed. -/
  frames : List (Option τ)
  scheduler : StaticQueueScheduler
  limit : BitVec 64
  out : ω

variable {τ ρ ω : Type}

/-- `prefetch_awaitable::await_suspend`: the handle to transfer to. -/
def awaitSuspend (s : Exec τ ω) (handle : ℕ) : Option (ℕ × Exec τ ω) := do
  let (next, scheduler) := removeNextTask (schedule s.scheduler handle)
  let next ← next
  some (next, { s with scheduler := scheduler })

def onTaskComplete (s : Exec τ ω) : Exec τ ω :=
  { s with limit := s.limit + 1 }

/-- One hop of the chain that `handle.resume()` sets off: the coroutine suspends and
transfers control, or completes. -/
def hop (P : Program τ ρ ω) (s : ℕ × Exec τ ω) :
    Option ((ℕ × Exec τ ω) ⊕ Exec τ ω) := do
  let (handle, s) := s
  let frame ← s.frames[handle]?
  let frame ← frame
  match ← P.resume frame with
  | .inl frame =>
      let next ← awaitSuspend { s with frames := s.frames.set handle (some frame) } handle
      some (.inl next)
  | .inr result =>
      -- the frame does not suspend at its end: it is destroyed
      some (.inr (onTaskComplete { s with
        frames := s.frames.set handle none
        out := P.emit s.out result }))

def resume (P : Program τ ρ ω) (fuel : ℕ) (s : Exec τ ω) (handle : ℕ) :
    Option (Exec τ ω) :=
  iterate (hop P) fuel (handle, s)

/-- Create the coroutine and `Throttler::spawn` it. -/
def spawn (P : Program τ ρ ω) (fuel : ℕ) (s : Exec τ ω) (frame : τ) :
    Option (Exec τ ω) := do
  let handle := s.frames.length
  let s : Exec τ ω := { s with frames := s.frames ++ [some frame] }
  let s ← if s.limit = 0 then
      let (next, scheduler) := removeNextTask s.scheduler
      next.bind fun next => resume P fuel { s with scheduler := scheduler } next
    else some s
  some { s with scheduler := schedule s.scheduler handle, limit := s.limit - 1 }

/-- One round of the loop of `StaticQueueScheduler::run`. -/
def runBody (P : Program τ ρ ω) (fuel : ℕ) (s : Exec τ ω) :
    Option (Exec τ ω ⊕ Exec τ ω) :=
  match tryRemoveNextTask s.scheduler with
  | (none, scheduler) => some (.inr { s with scheduler := scheduler })
  | (some handle, scheduler) =>
      (resume P fuel { s with scheduler := scheduler } handle).map .inl

/-- `Throttler::run`. -/
def run (P : Program τ ρ ω) (fuel : ℕ) (s : Exec τ ω) : Option (Exec τ ω) :=
  iterate (runBody P fuel) fuel s

/-- Spawn all, run, and run again when the throttler is destroyed. -/
def spawnAll (P : Program τ ρ ω) (fuel : ℕ) (scheduler : StaticQueueScheduler)
    (maxConcurrentTasks : BitVec 64) (out : ω) (frames : List τ) : Option (Exec τ ω) := do
  let s : Exec τ ω :=
    { frames := [], scheduler := scheduler, limit := maxConcurrentTasks, out := out }
  let s ← frames.foldlM (spawn P fuel) s
  let s ← run P fuel s
  run P fuel s

/-! ## Coroutines in flight -/

/-- A coroutine that has not completed: on its own it takes `steps` resumptions to its
result. -/
structure Pending (ρ : Type) where
  handle : ℕ
  steps : ℕ
  result : ρ

/-- The frame of `p` is there, and owes its result within `w` resumptions. -/
def Pending.Owed (P : Program τ ρ ω) (w : ℕ) (frames : List (Option τ)) (p : Pending ρ) :
    Prop :=
  p.steps ≤ w ∧ ∃ frame, frames[p.handle]? = some (some frame) ∧
    iterate P.resume p.steps frame = some p.result

/-- Of the coroutines that owe the results `created`, the ones in `flight` have their frames,
and the others have delivered `done`. -/
structure Flight (P : Program τ ρ ω) (w : ℕ) (created done : List ρ)
    (flight : List (Pending ρ)) (frames : List (Option τ)) : Prop where
  distinct : (flight.map Pending.handle).Nodup
  owed : ∀ p ∈ flight, p.Owed P w frames
  results : (done ++ flight.map Pending.result).Perm created

section
variable {P : Program τ ρ ω} {w : ℕ} {created done : List ρ} {p : Pending ρ}
  {flight flight' : List (Pending ρ)} {frames : List (Option τ)}

theorem Flight.perm (h : Flight P w created done flight frames)
    (hperm : flight'.Perm flight) : Flight P w created done flight' frames where
  distinct := (hperm.map _).nodup_iff.mpr h.distinct
  owed q hq := h.owed q (hperm.mem_iff.mp hq)
  results := (List.Perm.append_left done (hperm.map _)).trans h.results

theorem Pending.Owed.set {q : Pending ρ} (h : q.Owed P w frames) {handle : ℕ}
    (hne : handle ≠ q.handle) (frame : Option τ) :
    q.Owed P w (frames.set handle frame) := by
  obtain ⟨hsteps, f, hf, hrun⟩ := h
  exact ⟨hsteps, f, by rw [List.getElem?_set_ne hne]; exact hf, hrun⟩

theorem Flight.ne_of_mem (h : Flight P w created done (p :: flight) frames) {q : Pending ρ}
    (hq : q ∈ flight) : p.handle ≠ q.handle := by
  have hnd := h.distinct
  rw [List.map_cons, List.nodup_cons] at hnd
  intro heq
  exact hnd.1 (List.mem_map.mpr ⟨q, hq, heq.symm⟩)

/-- **A coroutine suspends**, one resumption closer to its result. -/
theorem Flight.suspend (h : Flight P w created done (p :: flight) frames) {k : ℕ} {frame : τ}
    (hk : k < p.steps) (hrun : iterate P.resume k frame = some p.result) :
    Flight P w created done ({ p with steps := k } :: flight)
      (frames.set p.handle (some frame)) := by
  refine ⟨h.distinct, fun q hq => ?_, h.results⟩
  rcases List.mem_cons.mp hq with rfl | hq
  · obtain ⟨hsteps, f, hf, -⟩ := h.owed p List.mem_cons_self
    have hlt := (List.getElem?_eq_some_iff.mp hf).1
    exact ⟨(Nat.le_of_lt hk).trans hsteps, frame, List.getElem?_set_self hlt, hrun⟩
  · exact (h.owed q (List.mem_cons_of_mem _ hq)).set (h.ne_of_mem hq) _

/-- **A coroutine completes**, and delivers its result. -/
theorem Flight.complete (h : Flight P w created done (p :: flight) frames) :
    Flight P w created (done ++ [p.result]) flight (frames.set p.handle none) := by
  refine ⟨(List.nodup_cons.mp h.distinct).2, fun q hq => ?_, ?_⟩
  · exact (h.owed q (List.mem_cons_of_mem _ hq)).set (h.ne_of_mem hq) _
  · rw [List.append_assoc, List.singleton_append]
    exact h.results

/-- **A coroutine is created**, in a new frame. -/
theorem Flight.create (h : Flight P w created done flight frames) {k : ℕ} {frame : τ} {r : ρ}
    (hk : k ≤ w) (hrun : iterate P.resume k frame = some r) :
    Flight P w (created ++ [r]) done
      (flight ++ [{ handle := frames.length, steps := k, result := r }])
      (frames ++ [some frame]) := by
  have hlt : ∀ q ∈ flight, q.handle < frames.length := by
    intro q hq
    obtain ⟨-, f, hf, -⟩ := h.owed q hq
    exact (List.getElem?_eq_some_iff.mp hf).1
  refine ⟨?_, fun q hq => ?_, ?_⟩
  · rw [List.map_append, List.nodup_append]
    refine ⟨h.distinct, List.nodup_singleton _, ?_⟩
    intro a ha b hb
    obtain ⟨q, hq, rfl⟩ := List.mem_map.mp ha
    rw [List.map_singleton, List.mem_singleton] at hb
    exact Nat.ne_of_lt (hb ▸ hlt q hq)
  · rcases List.mem_append.mp hq with hq | hq
    · obtain ⟨hsteps, f, hf, hrun⟩ := h.owed q hq
      exact ⟨hsteps, f, by rw [List.getElem?_append_left (hlt q hq)]; exact hf, hrun⟩
    · rw [List.mem_singleton.mp hq]
      refine ⟨hk, frame, ?_, hrun⟩
      rw [List.getElem?_append_right (Nat.le_refl _), Nat.sub_self]
      rfl
  · rw [List.map_append, ← List.append_assoc]
    exact h.results.append_right _

end

/-! ## What the scheduler holds -/

/-- Of the handles of `n` streams, `active` have been taken from the scheduler, `queue` are in it,
and `lost` were written over in a full ring. The limit is what these leave. -/
structure Holding (n depth active lost : ℕ) (queue : List ℕ) (scheduler : StaticQueueScheduler)
    (limit : BitVec 64) : Prop where
  small : n < 2 ^ 64
  ring : scheduler.depth = depth
  room : active + queue.length ≤ depth
  holds : scheduler.Holds queue
  limit : limit.toNat + (active + queue.length + lost) = n

theorem initial_holding {scheduler : StaticQueueScheduler} (limit : BitVec 64)
    (hempty : scheduler.head = scheduler.tail) :
    Holding limit.toNat scheduler.depth 0 0 [] scheduler limit :=
  ⟨limit.isLt, rfl, Nat.zero_le _, RingBuffer.holds_nil hempty, rfl⟩

section
variable {n depth lost handle : ℕ} {queue : List ℕ} {scheduler : StaticQueueScheduler}
  {limit : BitVec 64}

/-- **The oldest handle is taken** from the scheduler. -/
theorem Holding.take (h : Holding n depth 0 lost (handle :: queue) scheduler limit) :
    ∃ rest, removeNextTask scheduler = (some handle, rest) ∧
      Holding n depth 1 lost queue rest limit := by
  obtain ⟨rest, hpop, hholds, hdepth⟩ := h.holds.pop
  have hroom := h.room
  have hlimit := h.limit
  rw [List.length_cons, Nat.zero_add, Nat.add_comm queue.length] at hroom hlimit
  exact ⟨rest, hpop, h.small, hdepth.trans h.ring, hroom, hholds, hlimit⟩

/-- Below its depth the scheduler also gives its oldest handle when it is asked whether it
has one. -/
theorem Holding.tryTake (h : Holding n depth 0 lost (handle :: queue) scheduler limit)
    (hlt : (handle :: queue).length < depth) :
    tryRemoveNextTask scheduler = removeNextTask scheduler :=
  h.holds.tryPop_cons (hlt.trans_eq h.ring.symm)

/-- A coroutine that was running goes behind the others. -/
theorem Holding.push (h : Holding n depth 1 lost queue scheduler limit) (handle : ℕ) :
    Holding n depth 0 lost (queue ++ [handle]) (schedule scheduler handle) limit := by
  have hroom := h.room
  have hlimit := h.limit
  have hlength : (queue ++ [handle]).length = 1 + queue.length := by
    rw [List.length_append, List.length_singleton, Nat.add_comm]
  have hlt : queue.length < scheduler.depth := by
    rw [h.ring]
    omega
  refine ⟨h.small, (RingBuffer.push_depth _ _).trans h.ring, ?_, h.holds.push hlt handle, ?_⟩
  · rw [hlength, Nat.zero_add]
    exact hroom
  · rw [hlength, Nat.zero_add]
    exact hlimit

/-- A coroutine that was running has completed. -/
theorem Holding.complete (h : Holding n depth 1 lost queue scheduler limit) :
    Holding n depth 0 lost queue scheduler (limit + 1) := by
  have hsmall := h.small
  have hroom := h.room
  have hlimit := h.limit
  refine ⟨hsmall, h.ring, by omega, h.holds, ?_⟩
  rw [BitVec.toNat_add]
  show (limit.toNat + 1) % 2 ^ 64 + (0 + queue.length + lost) = n
  rw [Nat.mod_eq_of_lt (by omega)]
  omega

theorem toNat_sub_one (hne : limit ≠ 0) : (limit - 1).toNat + 1 = limit.toNat := by
  have hpos : 1 ≤ limit.toNat :=
    Nat.one_le_iff_ne_zero.mpr fun hzero => hne (BitVec.eq_of_toNat_eq hzero)
  rw [BitVec.toNat_sub_of_le (by rw [BitVec.le_def]; exact hpos)]
  exact Nat.sub_add_cancel hpos

/-- **A new coroutine is scheduled** where there is room. -/
theorem Holding.schedule (h : Holding n depth 0 lost queue scheduler limit)
    (hlt : queue.length < depth) (hne : limit ≠ 0) (handle : ℕ) :
    Holding n depth 0 lost (queue ++ [handle])
      (StaticQueueScheduler.schedule scheduler handle) (limit - 1) := by
  have hlimit := h.limit
  have hsub := toNat_sub_one hne
  have hlength : (queue ++ [handle]).length = queue.length + 1 := List.length_append
  refine ⟨h.small, (RingBuffer.push_depth _ _).trans h.ring, ?_,
    h.holds.push (hlt.trans_eq h.ring.symm) handle, ?_⟩
  · rw [hlength, Nat.zero_add]
    exact hlt
  · rw [hlength]
    omega

/-- In a full ring a new coroutine goes over the oldest one, and the others are lost with it. -/
theorem Holding.overwrite (h : Holding n depth 0 lost queue scheduler limit)
    (hfull : queue.length = depth) (hne : limit ≠ 0) (handle : ℕ) :
    Holding n depth 0 (queue.length + lost) [handle]
      (StaticQueueScheduler.schedule scheduler handle) (limit - 1) := by
  have hlimit := h.limit
  have hsub := toNat_sub_one hne
  refine ⟨h.small, (RingBuffer.push_depth _ _).trans h.ring, ?_,
    h.holds.push_full (hfull.trans h.ring.symm) handle, ?_⟩
  · rw [List.length_singleton, ← h.ring]
    exact scheduler.depth_pos
  · rw [List.length_singleton]
    omega

end

/-- The coroutines `running` have been taken from the scheduler, `queue` are in it, `parked`
are created but not yet scheduled, and `lost` were written over in a full ring. -/
structure Load (P : Program τ ρ ω) (n w depth : ℕ) (out : ω) (created done : List ρ)
    (running queue parked lost : List (Pending ρ)) (s : Exec τ ω) : Prop where
  holding : Holding n depth running.length lost.length (queue.map Pending.handle) s.scheduler
    s.limit
  flight : Flight P w created done (running ++ (queue ++ (parked ++ lost))) s.frames
  out : s.out = done.foldl P.emit out

variable {P : Program τ ρ ω} {n w depth : ℕ} {out : ω} {created done : List ρ} {p : Pending ρ}
  {running queue parked lost : List (Pending ρ)} {s : Exec τ ω}

theorem Load.limit (h : Load P n w depth out created done running queue parked lost s) :
    s.limit.toNat + (running.length + queue.length + lost.length) = n := by
  have hlimit := h.holding.limit
  rwa [List.length_map] at hlimit

theorem Load.room (h : Load P n w depth out created done running queue parked lost s) :
    running.length + queue.length ≤ depth := by
  have hroom := h.holding.room
  rwa [List.length_map] at hroom

/-- Taking the oldest handle from the scheduler. -/
theorem Load.take (h : Load P n w depth out created done [] (p :: queue) parked lost s) :
    ∃ scheduler, removeNextTask s.scheduler = (some p.handle, scheduler) ∧
      Load P n w depth out created done [p] queue parked lost
        { s with scheduler := scheduler } := by
  obtain ⟨scheduler, htake, hholding⟩ := h.holding.take
  exact ⟨scheduler, htake, hholding, h.flight, h.out⟩

theorem Load.tryTake (h : Load P n w depth out created done [] (p :: queue) parked lost s)
    (hlt : (p :: queue).length < depth) :
    tryRemoveNextTask s.scheduler = removeNextTask s.scheduler := by
  apply h.holding.tryTake
  rw [← List.map_cons, List.length_map]
  exact hlt

/-- **One hop** of the chain: the running coroutine completes, or another one runs on. -/
theorem Load.hop (h : Load P n w depth out created done [p] queue parked lost s) :
    ∃ x, Throttler.hop P (p.handle, s) = some x ∧
      Sum.elim
        (fun t => ∃ q queue', t.1 = q.handle ∧ queue'.length = queue.length ∧
          weigh Pending.steps (q :: queue') < weigh Pending.steps (p :: queue) ∧
          Load P n w depth out created done [q] queue' parked lost t.2)
        (fun t => Load P n w depth out created (done ++ [p.result]) [] queue parked lost t)
        x := by
  obtain ⟨-, frame, hframe, hrun⟩ := h.flight.owed p List.mem_cons_self
  obtain ⟨k, hk⟩ : ∃ k, p.steps = k + 1 := by
    rcases hsteps : p.steps with _ | k
    · rw [hsteps] at hrun
      cases hrun
    · exact ⟨k, rfl⟩
  rw [hk] at hrun
  obtain ⟨x, hx, hrest⟩ := Option.bind_eq_some_iff.mp hrun
  rcases x with frame' | r
  · -- it suspends, schedules itself and transfers control to the oldest handle
    have hflight := h.flight.suspend (k := k) (by omega) hrest
    have hs' : Load P n w depth out created done [] (queue ++ [{ p with steps := k }]) parked
        lost { s with
          frames := s.frames.set p.handle (some frame')
          scheduler := schedule s.scheduler p.handle } := by
      refine ⟨?_, hflight.perm ?_, h.out⟩
      · rw [List.map_append]
        exact h.holding.push p.handle
      · rw [List.nil_append, List.append_assoc, List.singleton_append]
        exact List.perm_middle
    obtain ⟨q, queue', hcons⟩ : ∃ q queue', queue ++ [{ p with steps := k }] = q :: queue' :=
      List.exists_cons_of_ne_nil (by simp)
    rw [hcons] at hs'
    obtain ⟨scheduler, htake, hq⟩ := hs'.take
    refine ⟨.inl (q.handle, _), ?_, q, queue', rfl, ?_, ?_, hq⟩
    · simp only [Throttler.hop, hframe, hx, awaitSuspend, Option.bind_eq_bind,
        Option.bind_some, htake]
    · have hlen := congrArg List.length hcons
      simpa using hlen.symm
    · rw [← hcons]
      simp only [weigh_append, weigh_cons, weigh_nil]
      omega
  · -- it completes, and returns to whoever resumed the chain
    obtain rfl : r = p.result := Option.some.inj hrest
    refine ⟨.inr (onTaskComplete { s with
      frames := s.frames.set p.handle none
      out := P.emit s.out p.result }), by simp only [Throttler.hop, hframe, hx,
        Option.bind_eq_bind, Option.bind_some],
      h.holding.complete, h.flight.complete, ?_⟩
    show P.emit s.out p.result = (done ++ [p.result]).foldl P.emit out
    rw [List.foldl_append, ← h.out]
    rfl

/-- **A resumption** hops through the coroutines until exactly one of them completes. -/
theorem Load.resume (h : Load P n w depth out created done [p] queue parked lost s) {fuel : ℕ}
    (hfuel : weigh Pending.steps (p :: queue) < fuel) :
    ∃ s' r queue', Throttler.resume P fuel s p.handle = some s' ∧
      queue'.length = queue.length ∧
      Load P n w depth out created (done ++ [r]) [] queue' parked lost s' := by
  have hiter : ∃ s', iterate (Throttler.hop P) fuel (p.handle, s) = some s' ∧
      ∃ r queue', queue'.length = queue.length ∧
        Load P n w depth out created (done ++ [r]) [] queue' parked lost s' := by
    refine iterate_ranked (I := fun rank t => ∃ q queue', t.1 = q.handle ∧
      queue'.length = queue.length ∧ weigh Pending.steps (q :: queue') = rank ∧
      Load P n w depth out created done [q] queue' parked lost t.2) (fun rank t ht => ?_)
      ⟨p, queue, rfl, rfl, rfl, h⟩ hfuel
    obtain ⟨handle, t⟩ := t
    obtain ⟨q, queue₁, rfl, hlen₁, rfl, hq⟩ := ht
    obtain ⟨x, hx, hpost⟩ := hq.hop
    refine ⟨x, hx, ?_⟩
    rcases x with u | u
    · obtain ⟨q', queue₂, hhandle, hlen₂, hless, hq'⟩ := hpost
      exact ⟨_, hless, q', queue₂, hhandle, hlen₂.trans hlen₁, rfl, hq'⟩
    · exact ⟨q.result, queue₁, hlen₁, hpost⟩
  obtain ⟨s', hs', r, queue', hlen, hload⟩ := hiter
  exact ⟨s', r, queue', hs', hlen, hload⟩

/-- What is in flight never takes more steps than `n` coroutines of `w` steps each. -/
theorem Load.steps_le (h : Load P n w depth out created done [p] queue parked lost s) :
    weigh Pending.steps (p :: queue) ≤ n * w := by
  have hlen : (p :: queue).length ≤ n := by
    have hlimit := h.limit
    rw [List.length_singleton] at hlimit
    rw [List.length_cons]
    omega
  refine (Tally.weigh_le (b := w) fun q hq => ?_).trans (Nat.mul_le_mul_right w hlen)
  refine (h.flight.owed q ?_).1
  rcases List.mem_cons.mp hq with rfl | hq
  · exact List.mem_append_left _ (List.mem_singleton_self _)
  · exact List.mem_append_right [p] (List.mem_append_left _ hq)

/-- A new coroutine is created, and parked. -/
theorem Load.create (h : Load P n w depth out created done [] queue [] lost s) {k : ℕ}
    {frame : τ} {r : ρ} (hk : k ≤ w) (hrun : iterate P.resume k frame = some r) :
    Load P n w depth out (created ++ [r]) done [] queue
      [{ handle := s.frames.length, steps := k, result := r }] lost
      { s with frames := s.frames ++ [some frame] } := by
  refine ⟨h.holding, (h.flight.create hk hrun).perm ?_, h.out⟩
  rw [List.nil_append, List.nil_append, List.nil_append, List.append_assoc]
  exact List.Perm.append_left queue List.perm_append_comm

/-- What was created is done, or still somewhere. -/
theorem Load.length (h : Load P n w depth out created done [] queue [] lost s) :
    created.length = done.length + (queue.length + lost.length) := by
  have hperm := h.flight.results.length_eq
  simp only [List.nil_append, List.length_append, List.length_map] at hperm
  exact hperm.symm

/-- **The parked coroutine is scheduled.** In a ring that is full already the coroutines it
held are lost. -/
theorem Load.enqueue {q : Pending ρ}
    (h : Load P n w depth out created done [] queue [q] lost s) (hne : s.limit ≠ 0) :
    ∃ queue' lost', queue' ≠ [] ∧ (queue.length < depth → lost' = lost) ∧
      Load P n w depth out created done [] queue' [] lost'
        { s with scheduler := schedule s.scheduler q.handle, limit := s.limit - 1 } := by
  have hroom := h.room
  rw [List.length_nil, Nat.zero_add] at hroom
  rcases Nat.lt_or_ge queue.length depth with hlt | hge
  · refine ⟨queue ++ [q], lost, by simp, fun _ => rfl, ?_, ?_, h.out⟩
    · rw [List.map_append]
      exact h.holding.schedule (by rw [List.length_map]; exact hlt) hne q.handle
    · have hflight := h.flight
      rw [List.nil_append] at hflight ⊢
      rw [List.nil_append, List.append_assoc]
      exact hflight
  · have hfull : queue.length = depth := Nat.le_antisymm hroom hge
    have hover := h.holding.overwrite (by rw [List.length_map]; exact hfull) hne q.handle
    rw [List.length_map, ← List.length_append] at hover
    refine ⟨[q], queue ++ lost, by simp, fun hlt => absurd hlt (Nat.not_lt_of_le hge), hover,
      h.flight.perm ?_, h.out⟩
    rw [List.nil_append, List.nil_append, List.nil_append, List.singleton_append,
      List.singleton_append]
    exact List.perm_middle.symm

/-- The throttler between two calls of `spawn`. Coroutines complete only when the limit is
reached, and none is lost while a limit or a number of coroutines below the depth keeps
the ring from filling up. -/
structure Spawned (P : Program τ ρ ω) (n w depth : ℕ) (out : ω) (created done : List ρ)
    (queue lost : List (Pending ρ)) (s : Exec τ ω) : Prop where
  load : Load P n w depth out created done [] queue [] lost s
  calm : done = [] ∨ s.limit.toNat = 0
  kept : queue = [] → lost = []
  fits : n < depth ∨ created.length < depth → lost = []

/-- The coroutine that was just created is scheduled. -/
theorem Spawned.enqueue {q : Pending ρ} {r : ρ}
    (h : Load P n w depth out (created ++ [r]) done [] queue [q] lost s)
    (hcalm : done = [] ∨ s.limit.toNat = 1) (hzero : s.limit ≠ 0)
    (hfits : n < depth ∨ created.length < depth → lost = []) :
    ∃ queue' lost', Spawned P n w depth out (created ++ [r]) done queue' lost'
      { s with scheduler := schedule s.scheduler q.handle, limit := s.limit - 1 } := by
  obtain ⟨queue', lost', hne, hkeep, h'⟩ := h.enqueue hzero
  refine ⟨queue', lost', h', ?_, fun hnil => absurd hnil hne, fun hlow => ?_⟩
  · refine hcalm.imp_right fun hone => ?_
    exact Nat.succ.inj ((toNat_sub_one hzero).trans hone)
  · -- below the depth there was room for one more
    rw [hkeep ?_]
    · refine hfits (hlow.imp_right fun hlt => ?_)
      rw [List.length_append] at hlt
      omega
    · have hlimit := h.limit
      have hperm := h.flight.results.length_eq
      simp only [List.nil_append, List.length_append, List.length_map, List.length_nil,
        List.length_singleton] at hlimit hperm hlow
      omega

/-- **Spawning** a coroutine first completes another one when the limit is reached. -/
theorem Spawned.spawn (h : Spawned P n w depth out created done queue lost s) (hn : 1 ≤ n)
    {fuel k : ℕ} (hfuel : n * w < fuel) {frame : τ} {r : ρ} (hk : k ≤ w)
    (hrun : iterate P.resume k frame = some r) :
    ∃ s' done' queue' lost', Throttler.spawn P fuel s frame = some s' ∧
      Spawned P n w depth out (created ++ [r]) done' queue' lost' s' := by
  have hcreate := h.load.create hk hrun
  have hlimit := h.load.limit
  rw [List.length_nil] at hlimit
  by_cases hzero : s.limit = 0
  · have h0 : s.limit.toNat = 0 := by
      rw [hzero]
      rfl
    obtain ⟨p, rest, rfl⟩ : ∃ p rest, queue = p :: rest :=
      List.exists_cons_of_ne_nil (by
        intro hnil
        rw [h.kept hnil, hnil, List.length_nil] at hlimit
        omega)
    obtain ⟨scheduler, htake, hrunning⟩ := hcreate.take
    obtain ⟨s', r', queue', hresume, hlen, hs'⟩ :=
      hrunning.resume (hrunning.steps_le.trans_lt hfuel)
    have hone : s'.limit.toNat = 1 := by
      have hlimit' := hs'.limit
      rw [List.length_nil, hlen] at hlimit'
      rw [List.length_cons] at hlimit
      omega
    have hzero' : s'.limit ≠ 0 := by
      intro hnone
      rw [hnone] at hone
      cases hone
    obtain ⟨queue₂, lost₂, hs₂⟩ := Spawned.enqueue hs' (Or.inr hone) hzero' h.fits
    refine ⟨_, done ++ [r'], queue₂, lost₂, ?_, hs₂⟩
    simp only [Throttler.spawn, if_pos hzero, htake, Option.bind_some, hresume,
      Option.bind_eq_bind]
  · have hpos : s.limit.toNat ≠ 0 := fun h0 => hzero (BitVec.eq_of_toNat_eq h0)
    obtain ⟨queue₂, lost₂, hs₂⟩ := Spawned.enqueue hcreate
      (Or.inl (h.calm.resolve_right hpos)) hzero h.fits
    refine ⟨_, done, queue₂, lost₂, ?_, hs₂⟩
    simp only [Throttler.spawn, if_neg hzero, Option.bind_some, Option.bind_eq_bind]

theorem Spawned.spawnMany (h : Spawned P n w depth out created done queue lost s) (hn : 1 ≤ n)
    {fuel : ℕ} (hfuel : n * w < fuel) {frames : List τ} {results : List ρ}
    (hruns : List.Forall₂ (fun frame r => iterate P.resume w frame = some r)
      frames results) :
    ∃ s' done' queue' lost', frames.foldlM (Throttler.spawn P fuel) s = some s' ∧
      Spawned P n w depth out (created ++ results) done' queue' lost' s' := by
  induction hruns generalizing s created done queue lost with
  | nil =>
      rw [List.append_nil]
      exact ⟨s, done, queue, lost, rfl, h⟩
  | cons hrun _ ih =>
      obtain ⟨s₁, done₁, queue₁, lost₁, hspawn, h₁⟩ := h.spawn hn hfuel (Nat.le_refl w) hrun
      obtain ⟨s₂, done₂, queue₂, lost₂, hfold, h₂⟩ := ih h₁
      rw [List.append_assoc, List.singleton_append] at h₂
      exact ⟨s₂, done₂, queue₂, lost₂, by rw [List.foldlM_cons, hspawn]; exact hfold, h₂⟩

/-- As many coroutines wait as can take a step. -/
theorem Load.queue_le (h : Load P n w depth out created done [] queue [] lost s) :
    queue.length ≤ n * w := by
  rcases queue with _ | ⟨p, rest⟩
  · exact Nat.zero_le _
  · obtain ⟨hsteps, frame, -, hrun⟩ := h.flight.owed p List.mem_cons_self
    have hw : 1 ≤ w := by
      rcases hk : p.steps with _ | k
      · rw [hk] at hrun
        cases hrun
      · omega
    have hlimit := h.limit
    rw [List.length_nil] at hlimit
    calc (p :: rest).length ≤ n := by omega
      _ ≤ n * w := Nat.le_mul_of_pos_right n hw

/-- **Running** the scheduler below its depth completes every coroutine it has. -/
theorem Load.run (h : Load P n w depth out created done [] queue [] lost s)
    (hlt : queue.length < depth) {fuel : ℕ} (hfuel : n * w < fuel) :
    ∃ s' done', Throttler.run P fuel s = some s' ∧
      Load P n w depth out created done' [] [] [] lost s' := by
  have hqueue := h.queue_le.trans_lt hfuel
  have hiter : ∃ s', iterate (runBody P fuel) fuel s = some s' ∧
      ∃ done', Load P n w depth out created done' [] [] [] lost s' := by
    refine iterate_ranked (I := fun rank t => ∃ done queue, queue.length = rank ∧
      rank < depth ∧ Load P n w depth out created done [] queue [] lost t)
      (fun rank t ht => ?_) ⟨done, queue, rfl, hlt, h⟩ hqueue
    obtain ⟨done₁, queue₁, rfl, hlt₁, hload⟩ := ht
    rcases queue₁ with _ | ⟨p, rest⟩
    · refine ⟨.inr t, ?_, done₁, hload⟩
      have htry : tryRemoveNextTask t.scheduler = (none, t.scheduler) :=
        hload.holding.holds.tryPop_nil
      simp only [runBody, htry]
    · obtain ⟨scheduler, htake, hrunning⟩ := hload.take
      obtain ⟨u, r, queue₂, hresume, hlen, hu⟩ :=
        hrunning.resume (hrunning.steps_le.trans_lt hfuel)
      have hshort : rest.length < (p :: rest).length := Nat.lt_succ_self _
      refine ⟨.inl u, ?_, rest.length, hshort, done₁ ++ [r], queue₂, hlen,
        hshort.trans hlt₁, hu⟩
      simp only [runBody, hload.tryTake hlt₁, htake, hresume, Option.map_some]
  obtain ⟨s', hs', done', hload⟩ := hiter
  exact ⟨s', done', hs', hload⟩

/-- Running a full scheduler does nothing. -/
theorem Load.run_full (h : Load P n w depth out created done [] queue [] lost s)
    (hfull : queue.length = depth) {fuel : ℕ} (hfuel : 0 < fuel) :
    Throttler.run P fuel s = some s := by
  obtain ⟨k, rfl⟩ : ∃ k, fuel = k + 1 := ⟨fuel - 1, by omega⟩
  have htry : tryRemoveNextTask s.scheduler = (none, s.scheduler) :=
    h.holding.holds.tryPop_full (by rw [List.length_map, h.holding.ring]; exact hfull)
  apply iterate_exit k
  simp only [runBody, htry]

/-- Nothing is spawned yet. -/
theorem initial_spawned (P : Program τ ρ ω) (w : ℕ) {scheduler : StaticQueueScheduler}
    (maxConcurrentTasks : BitVec 64) (out : ω) (hempty : scheduler.head = scheduler.tail) :
    Spawned P maxConcurrentTasks.toNat w scheduler.depth out [] [] [] []
      { frames := [], scheduler := scheduler, limit := maxConcurrentTasks, out := out } where
  load := ⟨initial_holding maxConcurrentTasks hempty,
    ⟨List.nodup_nil, by simp, List.Perm.refl _⟩, rfl⟩
  calm := Or.inl rfl
  kept _ := rfl
  fits _ := rfl

/-- **Short of a full ring nothing is lost**: all that was spawned completes. -/
theorem Spawned.complete (h : Spawned P n w depth out created done queue lost s)
    (hlow : n < depth ∨ created.length < depth) {fuel : ℕ} (hfuel : n * w < fuel) :
    ∃ s' done', Throttler.run P fuel s = some s' ∧
      Load P n w depth out created done' [] [] [] [] s' := by
  obtain rfl : lost = [] := h.fits hlow
  have hlimit := h.load.limit
  have hlength := h.load.length
  rw [List.length_nil] at hlimit hlength
  exact h.load.run (by omega) hfuel

/-- **A limit and a number of coroutines that both reach the depth** fill the ring. Then
either it is taken for an empty one, or coroutines were written over: some never complete. -/
theorem Spawned.stuck (h : Spawned P n w depth out created done queue lost s)
    (hn : depth ≤ n) (hcreated : depth ≤ created.length) {fuel : ℕ} (hfuel : n * w < fuel) :
    ∃ s', ∃ done' : List ρ, Throttler.run P fuel s = some s' ∧
      s'.out = done'.foldl P.emit out ∧ done'.length < created.length := by
  have hlimit := h.load.limit
  have hlength := h.load.length
  have hroom := h.load.room
  rw [List.length_nil] at hlimit hroom
  have hheld : depth ≤ queue.length + lost.length := by
    rcases h.calm with hdone | hzero
    · rw [hdone, List.length_nil] at hlength
      omega
    · omega
  have hdepth : 0 < depth := by
    rw [← h.load.holding.ring]
    exact s.scheduler.depth_pos
  rcases Nat.lt_or_ge queue.length depth with hlt | hge
  · obtain ⟨s', done', hs', h'⟩ := h.load.run hlt hfuel
    have hlength' := h'.length
    rw [List.length_nil] at hlength'
    exact ⟨s', done', hs', h'.out, by omega⟩
  · exact ⟨s, done, h.load.run_full (by omega) (by omega), h.load.out, by omega⟩

/-! ## Limits below the depth -/

/-- **No coroutine is lost, and none runs twice.** Coroutines that each come to a result
on their own within `w` resumptions, spawned with a limit from one on and below the depth
of an empty scheduler, all complete, and deliver exactly these results in some order. -/
theorem spawnAll_spec (P : Program τ ρ ω) {w fuel : ℕ} {scheduler : StaticQueueScheduler}
    {maxConcurrentTasks : BitVec 64} (out : ω) {frames : List τ} {results : List ρ}
    (hempty : scheduler.head = scheduler.tail) (hlow : 1 ≤ maxConcurrentTasks.toNat)
    (hdepth : maxConcurrentTasks.toNat < scheduler.depth)
    (hruns : List.Forall₂ (fun frame r => iterate P.resume w frame = some r) frames results)
    (hfuel : maxConcurrentTasks.toNat * w < fuel) :
    ∃ s, ∃ done : List ρ, spawnAll P fuel scheduler maxConcurrentTasks out frames = some s ∧
      s.out = done.foldl P.emit out ∧ done.Perm results := by
  obtain ⟨s₁, done₁, queue₁, lost₁, hspawn, h₁⟩ :=
    (initial_spawned P w maxConcurrentTasks out hempty).spawnMany hlow hfuel hruns
  obtain ⟨s₂, done₂, hrun₂, h₂⟩ := h₁.complete (Or.inl hdepth) hfuel
  obtain ⟨s₃, done₃, hrun₃, h₃⟩ := h₂.run (Nat.zero_lt_of_lt hdepth) hfuel
  refine ⟨s₃, done₃, ?_, h₃.out, ?_⟩
  · simp only [spawnAll, hspawn, hrun₂, hrun₃, Option.bind_eq_bind, Option.bind_some]
  · have hresults := h₃.flight.results
    simpa using hresults

end Coroutines.Throttler
