import Coroutines.Lib.Transition
import Coroutines.Throttler

/-!
# How many coroutines are in flight

The throttler again, now stopping wherever control changes hands: each hop of a chain is a step
of its own, and so is each test that `spawn` and `run` make. What `spawn` left open about the
chains it sets off, how many coroutines complete in one and whether it comes back, can so be
asked of every point of a run, and of coroutines of which nothing is known.
-/

namespace Coroutines.Throttler.Census

open Loop Transition StaticQueueScheduler

/-! ## The model -/

/-- Who resumed the chain, and waits for it to come back. -/
inductive Caller (τ : Type)
  | spawn (handle : ℕ) (tasks : List τ)   -- to schedule this handle, and spawn these next
  | run (later : ℕ)                       -- with so many calls of `run` to come

inductive Place (τ : Type)
  | spawning (tasks : List τ)
  | resuming (handle : ℕ) (caller : Caller τ)
  | scheduling (handle : ℕ) (tasks : List τ)
  | running (later : ℕ)
  | done

variable {τ ρ ω : Type}

/-- Where control goes when the chain comes back. -/
def Caller.back : Caller τ → Place τ
  | .spawn handle tasks => .scheduling handle tasks
  | .run later => .running later

/-- The coroutines that have completed: their frames are gone. -/
def completed (frames : List (Option τ)) : ℕ := frames.countP Option.isNone

structure State (τ ω : Type) where
  exec : Exec τ ω
  place : Place τ
  /-- History: the coroutines that were spawned. -/
  spawned : ℕ
  /-- History: how many had completed when `spawn` last resumed a chain. -/
  before : ℕ
  /-- History: how many completed in each chain that came back to `spawn`. -/
  returns : List ℕ

def State.inFlight (s : State τ ω) : ℕ := s.spawned - completed s.exec.frames

def initial (scheduler : StaticQueueScheduler) (maxConcurrentTasks : BitVec 64) (out : ω)
    (tasks : List τ) : State τ ω where
  exec := { frames := [], scheduler := scheduler, limit := maxConcurrentTasks, out := out }
  place := .spawning tasks
  spawned := 0
  before := 0
  returns := []

/-- `Throttler::spawn` up to its `resume`, or past it when the limit is not reached. -/
def spawnStep (s : State τ ω) (frame : τ) (tasks : List τ) : Option (State τ ω) :=
  let handle := s.exec.frames.length
  let exec : Exec τ ω := { s.exec with frames := s.exec.frames ++ [some frame] }
  if exec.limit = 0 then
    let (next, scheduler) := removeNextTask exec.scheduler
    next.map fun next =>
      { s with
        exec := { exec with scheduler := scheduler }
        place := .resuming next (.spawn handle tasks)
        before := completed exec.frames }
  else some { s with exec := exec, place := .scheduling handle tasks }

/-- The rest of `Throttler::spawn`. -/
def scheduleStep (s : State τ ω) (handle : ℕ) (tasks : List τ) : State τ ω :=
  { s with
    exec := { s.exec with
      scheduler := schedule s.exec.scheduler handle
      limit := s.exec.limit - 1 }
    place := .spawning tasks
    spawned := s.spawned + 1 }

/-- The chain goes on with another coroutine, or comes back. -/
def hopStep (P : Program τ ρ ω) (s : State τ ω) (handle : ℕ) (caller : Caller τ) :
    Option (State τ ω) :=
  (hop P (handle, s.exec)).map fun
    | .inl (next, exec) => { s with exec := exec, place := .resuming next caller }
    | .inr exec =>
        match caller with
        | .spawn .. =>
            { s with
              exec := exec
              place := caller.back
              returns := s.returns ++ [completed exec.frames - s.before] }
        | .run _ => { s with exec := exec, place := caller.back }

/-- `run` is called after the last `spawn`, and once more by the destructor of the throttler. -/
def afterRun : ℕ → Place τ
  | 0 => .done
  | later + 1 => .running later

def runStep (s : State τ ω) (later : ℕ) : State τ ω :=
  match tryRemoveNextTask s.exec.scheduler with
  | (none, scheduler) =>
      { s with
        exec := { s.exec with scheduler := scheduler }
        place := afterRun later }
  | (some handle, scheduler) =>
      { s with
        exec := { s.exec with scheduler := scheduler }
        place := .resuming handle (.run later) }

def step (P : Program τ ρ ω) (s : State τ ω) : Option (State τ ω) :=
  match s.place with
  | .spawning [] => some { s with place := .running 1 }
  | .spawning (frame :: tasks) => spawnStep s frame tasks
  | .resuming handle caller => hopStep P s handle caller
  | .scheduling handle tasks => some (scheduleStep s handle tasks)
  | .running later => some (runStep s later)
  | .done => none

/-- There is nothing to choose: the machine has one run. -/
def system (P : Program τ ρ ω) (s₀ : State τ ω) : System (State τ ω) Unit where
  Init s := s = s₀
  step s _ := step P s

/-! ## What the throttler keeps to -/

/-- The limit and the coroutines in flight make up `n`. The limit is not zero where `spawn`
lowers it, and each chain came back to `spawn` with one coroutine completed. -/
structure State.Balanced (n : ℕ) (s : State τ ω) : Prop where
  completed_le : completed s.exec.frames ≤ s.spawned
  balance : s.exec.limit.toNat + s.inFlight = n
  inFlight_le : s.inFlight ≤ n
  no_wrap : ∀ handle tasks, s.place = .scheduling handle tasks → s.exec.limit ≠ 0
  one : ∀ k ∈ s.returns, k = 1

/-! ## The books -/

/-- What the scheduler holds below its depth, where nothing is lost: `active` and `queue` are the
coroutines that were spawned and have not completed. -/
structure Books (n depth active spawned : ℕ) (queue : List ℕ) (s : Exec τ ω) : Prop where
  holding : Holding n depth active 0 queue s.scheduler s.limit
  below : n < depth
  count : spawned = completed s.frames + (active + queue.length)

section
variable {P : Program τ ρ ω} {n depth active spawned handle : ℕ} {queue : List ℕ}
  {s : Exec τ ω} {frames : List (Option τ)}

theorem completed_set_some {frame : τ} (h : frames[handle]? = some (some frame)) (frame' : τ) :
    completed (frames.set handle (some frame')) = completed frames := by
  obtain ⟨hlt, hget⟩ := List.getElem?_eq_some_iff.mp h
  rw [completed, List.countP_set hlt, hget]
  rfl

theorem completed_set_none {frame : τ} (h : frames[handle]? = some (some frame)) :
    completed (frames.set handle none) = completed frames + 1 := by
  obtain ⟨hlt, hget⟩ := List.getElem?_eq_some_iff.mp h
  rw [completed, List.countP_set hlt, hget]
  rfl

theorem completed_create (frame : τ) :
    completed (frames ++ [some frame]) = completed frames := by
  rw [completed, List.countP_append]
  rfl

theorem Books.limit (h : Books n depth active spawned queue s) :
    s.limit.toNat + (active + queue.length) = n :=
  h.holding.limit

/-- A new frame, not yet scheduled, is not in the books. -/
theorem Books.create (h : Books n depth active spawned queue s) (frame : τ) :
    Books n depth active spawned queue { s with frames := s.frames ++ [some frame] } := by
  refine ⟨h.holding, h.below, ?_⟩
  show spawned = completed (s.frames ++ [some frame]) + (active + queue.length)
  rw [completed_create]
  exact h.count

/-- **The oldest coroutine is taken** from the scheduler. -/
theorem Books.take (h : Books n depth 0 spawned (handle :: queue) s) :
    ∃ scheduler, removeNextTask s.scheduler = (some handle, scheduler) ∧
      Books n depth 1 spawned queue { s with scheduler := scheduler } := by
  obtain ⟨scheduler, htake, hholding⟩ := h.holding.take
  have hcount := h.count
  rw [List.length_cons, Nat.zero_add, Nat.add_comm queue.length] at hcount
  exact ⟨scheduler, htake, hholding, h.below, hcount⟩

/-- `run` sees the scheduler as it is, since it is never full. -/
theorem Books.tryTake (h : Books n depth 0 spawned (handle :: queue) s) :
    tryRemoveNextTask s.scheduler = removeNextTask s.scheduler := by
  apply h.holding.tryTake
  have hlimit := h.limit
  have hbelow := h.below
  omega

/-- **The coroutine that is running suspends**, and the oldest one goes on in its place. -/
theorem Books.suspend (h : Books n depth 1 spawned queue s) (handle : ℕ) :
    ∃ next queue' scheduler,
      awaitSuspend s handle = some (next, { s with scheduler := scheduler }) ∧
        Books n depth 1 spawned queue' { s with scheduler := scheduler } := by
  have hcount := h.count
  have hlength : (queue ++ [handle]).length = 1 + queue.length := by
    rw [List.length_append, List.length_singleton, Nat.add_comm]
  have hwaiting : Books n depth 0 spawned (queue ++ [handle])
      { s with scheduler := schedule s.scheduler handle } :=
    ⟨h.holding.push handle, h.below, by rw [hlength, Nat.zero_add]; exact hcount⟩
  obtain ⟨next, queue', hcons⟩ : ∃ next queue', queue ++ [handle] = next :: queue' :=
    List.exists_cons_of_ne_nil (by simp)
  rw [hcons] at hwaiting
  obtain ⟨scheduler, hremove, hbooks⟩ := hwaiting.take
  refine ⟨next, queue', scheduler, ?_, hbooks⟩
  simp only [awaitSuspend, hremove, Option.bind_eq_bind, Option.bind_some]

/-- **One hop** completes the coroutine that is running, or none. -/
theorem Books.hop (h : Books n depth 1 spawned queue s) {x : (ℕ × Exec τ ω) ⊕ Exec τ ω}
    (hx : Throttler.hop P (handle, s) = some x) :
    Sum.elim
      (fun t => (∃ queue', Books n depth 1 spawned queue' t.2) ∧
        completed t.2.frames = completed s.frames)
      (fun t => Books n depth 0 spawned queue t ∧
        completed t.frames = completed s.frames + 1) x := by
  obtain ⟨slot, hslot, hrest⟩ := Option.bind_eq_some_iff.mp hx
  obtain ⟨frame, rfl, hbody⟩ := Option.bind_eq_some_iff.mp hrest
  obtain ⟨y, -, hresult⟩ := Option.bind_eq_some_iff.mp hbody
  rcases y with frame' | r
  · have hset := completed_set_some hslot frame'
    have hbooks : Books n depth 1 spawned queue
        { s with frames := s.frames.set handle (some frame') } :=
      ⟨h.holding, h.below, h.count.trans (congrArg (· + _) hset.symm)⟩
    obtain ⟨next, queue', scheduler, hnext, hbooks'⟩ := hbooks.suspend handle
    simp only [hnext, Option.bind_eq_bind, Option.bind_some, Option.some.injEq] at hresult
    subst hresult
    exact ⟨⟨queue', hbooks'⟩, hset⟩
  · have hset := completed_set_none hslot
    obtain rfl := Option.some.inj hresult
    have hcount := h.count
    refine ⟨⟨h.holding.complete, h.below, ?_⟩, hset⟩
    show spawned = completed (s.frames.set handle none) + (0 + queue.length)
    rw [hset]
    omega

/-- **The new coroutine is scheduled**, and counted. -/
theorem Books.schedule (h : Books n depth 0 spawned queue s) (hne : s.limit ≠ 0) (handle : ℕ) :
    Books n depth 0 (spawned + 1) (queue ++ [handle])
      { s with
        scheduler := StaticQueueScheduler.schedule s.scheduler handle
        limit := s.limit - 1 } := by
  have hlimit := h.limit
  have hcount := h.count
  have hbelow := h.below
  refine ⟨h.holding.schedule (by omega) hne handle, hbelow, ?_⟩
  rw [List.length_append, List.length_singleton]
  show spawned + 1 = completed s.frames + (0 + (queue.length + 1))
  omega

end

/-! ## Every point of a run -/

variable {P : Program τ ρ ω} {n : ℕ} {s s' : State τ ω} {tasks : List τ}

/-- The coroutines that control is in. -/
def Place.active : Place τ → ℕ
  | .resuming .. => 1
  | _ => 0

/-- While `spawn` waits for a chain nothing has completed, and afterwards it may lower the
limit. -/
def State.Ready (s : State τ ω) : Prop :=
  match s.place with
  | .resuming _ (.spawn ..) => s.before = completed s.exec.frames
  | .scheduling .. => s.exec.limit ≠ 0
  | _ => True

structure Inv (n : ℕ) (s : State τ ω) : Prop where
  books : ∃ depth queue, Books n depth s.place.active s.spawned queue s.exec
  ready : s.Ready
  one : ∀ k ∈ s.returns, k = 1

theorem Inv.books_at {place : Place τ} (h : Inv n s) (hplace : s.place = place) :
    ∃ depth queue, Books n depth place.active s.spawned queue s.exec := by
  have hbooks := h.books
  rw [hplace] at hbooks
  exact hbooks

theorem Inv.balanced (h : Inv n s) : s.Balanced n := by
  obtain ⟨depth, queue, hbooks⟩ := h.books
  have hlimit := hbooks.limit
  have hcount := hbooks.count
  refine ⟨?_, ?_, ?_, fun handle tasks hplace => ?_, h.one⟩
  · rw [hcount]
    exact Nat.le_add_right _ _
  · rw [State.inFlight, hcount, Nat.add_sub_cancel_left]
    exact hlimit
  · rw [State.inFlight, hcount, Nat.add_sub_cancel_left, ← hlimit]
    exact Nat.le_add_left _ _
  · have hready := h.ready
    rw [State.Ready, hplace] at hready
    exact hready

theorem initial_inv {scheduler : StaticQueueScheduler} {maxConcurrentTasks : BitVec 64} (out : ω)
    (tasks : List τ) (hempty : scheduler.head = scheduler.tail)
    (hdepth : maxConcurrentTasks.toNat < scheduler.depth) :
    Inv maxConcurrentTasks.toNat (initial scheduler maxConcurrentTasks out tasks) where
  books := ⟨_, [], initial_holding maxConcurrentTasks hempty, hdepth, rfl⟩
  ready := trivial
  one k hk := by cases hk

/-- **A coroutine is created.** When the limit is reached the scheduler is not empty. -/
theorem spawnStep_inv {frame : τ} (hn : 1 ≤ n) (h : Inv n s)
    (hplace : s.place = .spawning (frame :: tasks)) (hs : spawnStep s frame tasks = some s') :
    Inv n s' := by
  obtain ⟨depth, queue, hbooks⟩ := h.books_at hplace
  have hcreate := hbooks.create frame
  by_cases hzero : s.exec.limit = 0
  · have hlimit := hbooks.limit
    rw [hzero] at hlimit
    obtain ⟨next, rest, rfl⟩ : ∃ next rest, queue = next :: rest := by
      apply List.exists_cons_of_ne_nil
      rintro rfl
      exact absurd hlimit (Nat.ne_of_lt hn)
    obtain ⟨scheduler, hremove, htaken⟩ := hcreate.take
    simp only [spawnStep, if_pos hzero, hremove, Option.map_some, Option.some.injEq] at hs
    subst hs
    exact ⟨⟨depth, rest, htaken⟩, rfl, h.one⟩
  · simp only [spawnStep, if_neg hzero, Option.some.injEq] at hs
    subst hs
    exact ⟨⟨depth, queue, hcreate⟩, hzero, h.one⟩

/-- **The chain goes on, or comes back** with one more coroutine completed. -/
theorem hopStep_inv {handle : ℕ} {caller : Caller τ} (h : Inv n s)
    (hplace : s.place = .resuming handle caller) (hs : hopStep P s handle caller = some s') :
    Inv n s' := by
  obtain ⟨depth, queue, hbooks⟩ := h.books_at hplace
  obtain ⟨x, hx, rfl⟩ := Option.map_eq_some_iff.mp hs
  have hhop := hbooks.hop hx
  have hready := h.ready
  rw [State.Ready, hplace] at hready
  rcases x with ⟨next, exec⟩ | exec
  · obtain ⟨⟨queue', hbooks'⟩, hsame⟩ := hhop
    rcases caller with ⟨parked, tasks⟩ | later
    · exact ⟨⟨depth, queue', hbooks'⟩, hready.trans hsame.symm, h.one⟩
    · exact ⟨⟨depth, queue', hbooks'⟩, trivial, h.one⟩
  · obtain ⟨hbooks', hmore⟩ := hhop
    rcases caller with ⟨parked, tasks⟩ | later
    · refine ⟨⟨depth, queue, hbooks'⟩, fun hzero => ?_, fun k hk => ?_⟩
      · -- the coroutine that was running has given its place back
        have hlimit : s.exec.limit.toNat + (1 + queue.length) = n := hbooks.limit
        have hlimit' : exec.limit.toNat + (0 + queue.length) = n := hbooks'.limit
        have hnone : exec.limit.toNat = 0 := congrArg BitVec.toNat hzero
        omega
      · rcases List.mem_append.mp hk with hk | hk
        · exact h.one k hk
        · have hbefore : s.before = completed s.exec.frames := hready
          rw [List.mem_singleton.mp hk, hmore, hbefore, Nat.add_sub_cancel_left]
    · exact ⟨⟨depth, queue, hbooks'⟩, trivial, h.one⟩

theorem scheduleStep_inv {handle : ℕ} (h : Inv n s) (hplace : s.place = .scheduling handle tasks) :
    Inv n (scheduleStep s handle tasks) := by
  obtain ⟨depth, queue, hbooks⟩ := h.books_at hplace
  have hready := h.ready
  rw [State.Ready, hplace] at hready
  exact ⟨⟨depth, queue ++ [handle], hbooks.schedule hready handle⟩, trivial, h.one⟩

theorem runStep_inv {later : ℕ} (h : Inv n s) (hplace : s.place = .running later) :
    Inv n (runStep s later) := by
  obtain ⟨depth, queue, hbooks⟩ := h.books_at hplace
  rcases queue with _ | ⟨handle, rest⟩
  · have htry : tryRemoveNextTask s.exec.scheduler = (none, s.exec.scheduler) :=
      hbooks.holding.holds.tryPop_nil
    simp only [runStep, htry]
    rcases later with _ | later
    · exact ⟨⟨depth, [], hbooks⟩, trivial, h.one⟩
    · exact ⟨⟨depth, [], hbooks⟩, trivial, h.one⟩
  · obtain ⟨scheduler, hremove, htaken⟩ := hbooks.take
    simp only [runStep, hbooks.tryTake, hremove]
    exact ⟨⟨depth, rest, htaken⟩, trivial, h.one⟩

theorem step_inv (hn : 1 ≤ n) (h : Inv n s) (hs : step P s = some s') : Inv n s' := by
  unfold step at hs
  split at hs
  · rename_i hplace
    cases hs
    obtain ⟨depth, queue, hbooks⟩ := h.books_at hplace
    exact ⟨⟨depth, queue, hbooks⟩, trivial, h.one⟩
  · rename_i hplace
    exact spawnStep_inv hn h hplace hs
  · rename_i hplace
    exact hopStep_inv h hplace hs
  · rename_i hplace
    cases hs
    exact scheduleStep_inv h hplace
  · rename_i hplace
    cases hs
    exact runStep_inv h hplace
  · cases hs

/-- **The limit and the coroutines in flight stay in balance**, whatever the coroutines do, for
every limit from one on and below the depth of an empty scheduler. -/
theorem reachable_balanced {scheduler : StaticQueueScheduler} {maxConcurrentTasks : BitVec 64}
    {out : ω} (hempty : scheduler.head = scheduler.tail) (hlow : 1 ≤ maxConcurrentTasks.toNat)
    (hdepth : maxConcurrentTasks.toNat < scheduler.depth)
    (hs : (system P (initial scheduler maxConcurrentTasks out tasks)).Reachable s) :
    s.Balanced maxConcurrentTasks.toNat := by
  have hinv : Inv maxConcurrentTasks.toNat s := by
    apply hs.invariant
    · rintro _ rfl
      exact initial_inv out tasks hempty hdepth
    · exact fun _ _ _ hi _ hstep => step_inv hlow hi hstep
  exact hinv.balanced

/-! ## The machine is the throttler -/

section
variable (s₀ : State τ ω) {fuel : ℕ} {exec : Exec τ ω}

theorem leads_of_step (h : step P s = some s') : (system P s₀).Leads s s' :=
  .single (l := ()) h

/-- A chain that comes back. -/
theorem resume_leads {handle : ℕ} {caller : Caller τ} (hplace : s.place = .resuming handle caller)
    (h : resume P fuel s.exec handle = some exec) :
    ∃ t, (system P s₀).Leads s t ∧ t.exec = exec ∧ t.place = caller.back := by
  unfold resume at h
  induction fuel generalizing s handle with
  | zero => cases h
  | succ fuel ih =>
      obtain ⟨x, hx, hrest⟩ := Option.bind_eq_some_iff.mp h
      rcases x with ⟨next, exec₁⟩ | exec₁
      · have hstep : step P s =
            some { s with exec := exec₁, place := .resuming next caller } := by
          simp only [step, hplace, hopStep, hx, Option.map_some]
        obtain ⟨t, ht, hexec, hback⟩ := ih (s := { s with
          exec := exec₁
          place := .resuming next caller }) rfl hrest
        exact ⟨t, (leads_of_step s₀ hstep).trans ht, hexec, hback⟩
      · obtain rfl := Option.some.inj hrest
        obtain ⟨t, hstep, hexec, hback⟩ : ∃ t, step P s = some t ∧ t.exec = exec₁ ∧
            t.place = caller.back := by
          simp only [step, hplace, hopStep, hx, Option.map_some]
          cases caller with
          | spawn parked tasks => exact ⟨_, rfl, rfl, rfl⟩
          | run later => exact ⟨_, rfl, rfl, rfl⟩
        exact ⟨t, leads_of_step s₀ hstep, hexec, hback⟩

/-- What `spawn` does once there is room. -/
theorem schedule_leads {handle : ℕ} (hplace : s.place = .scheduling handle tasks) :
    ∃ t, (system P s₀).Leads s t ∧ t.place = .spawning tasks ∧
      t.exec = { s.exec with
        scheduler := schedule s.exec.scheduler handle
        limit := s.exec.limit - 1 } :=
  ⟨scheduleStep s handle tasks, leads_of_step s₀ (by simp only [step, hplace]), rfl, rfl⟩

theorem spawn_leads {frame : τ} (hplace : s.place = .spawning (frame :: tasks))
    (h : spawn P fuel s.exec frame = some exec) :
    ∃ t, (system P s₀).Leads s t ∧ t.exec = exec ∧ t.place = .spawning tasks := by
  by_cases hzero : s.exec.limit = 0
  · simp only [Throttler.spawn, if_pos hzero, Option.bind_eq_bind] at h
    obtain ⟨exec₁, hexec₁, hrest⟩ := Option.bind_eq_some_iff.mp h
    obtain ⟨next, hnext, hresume⟩ := Option.bind_eq_some_iff.mp hexec₁
    obtain ⟨t₁, hstep, hexec, hplace₁⟩ : ∃ t₁, step P s = some t₁ ∧
        t₁.exec = { s.exec with
          frames := s.exec.frames ++ [some frame]
          scheduler := (removeNextTask s.exec.scheduler).2 } ∧
        t₁.place = .resuming next (.spawn s.exec.frames.length tasks) := by
      simp only [step, hplace, spawnStep, if_pos hzero, hnext, Option.map_some]
      exact ⟨_, rfl, rfl, rfl⟩
    rw [← hexec] at hresume
    obtain ⟨t₂, ht₂, rfl, hplace₂⟩ := resume_leads s₀ hplace₁ hresume
    obtain ⟨t₃, ht₃, hplace₃, hexec₃⟩ := schedule_leads (P := P) s₀ hplace₂
    refine ⟨t₃, (leads_of_step s₀ hstep).trans (ht₂.trans ht₃), ?_, hplace₃⟩
    rw [hexec₃]
    exact Option.some.inj hrest
  · simp only [Throttler.spawn, if_neg hzero, Option.bind_eq_bind, Option.bind_some] at h
    obtain ⟨t₁, hstep, hexec, hplace₁⟩ : ∃ t₁, step P s = some t₁ ∧
        t₁.exec = { s.exec with frames := s.exec.frames ++ [some frame] } ∧
        t₁.place = .scheduling s.exec.frames.length tasks := by
      simp only [step, hplace, spawnStep, if_neg hzero]
      exact ⟨_, rfl, rfl, rfl⟩
    obtain ⟨t₂, ht₂, hplace₂, hexec₂⟩ := schedule_leads (P := P) s₀ hplace₁
    refine ⟨t₂, (leads_of_step s₀ hstep).trans ht₂, ?_, hplace₂⟩
    rw [hexec₂, hexec]
    exact Option.some.inj h

theorem spawnMany_leads (hplace : s.place = .spawning tasks)
    (h : tasks.foldlM (spawn P fuel) s.exec = some exec) :
    ∃ t, (system P s₀).Leads s t ∧ t.exec = exec ∧ t.place = .spawning [] := by
  induction tasks generalizing s with
  | nil => exact ⟨s, Relation.ReflTransGen.refl, Option.some.inj h, hplace⟩
  | cons frame tasks ih =>
      rw [List.foldlM_cons] at h
      obtain ⟨exec₁, hspawn, hrest⟩ := Option.bind_eq_some_iff.mp h
      obtain ⟨t, ht, hexec, hback⟩ := spawn_leads s₀ hplace hspawn
      rw [← hexec] at hrest
      obtain ⟨u, hu, hlast⟩ := ih hback hrest
      exact ⟨u, ht.trans hu, hlast⟩

theorem run_leads {later : ℕ} (hplace : s.place = .running later)
    (h : run P fuel s.exec = some exec) :
    ∃ t, (system P s₀).Leads s t ∧ t.exec = exec ∧ t.place = afterRun later := by
  suffices hrounds : ∀ rounds, ∀ s : State τ ω, s.place = .running later →
      iterate (runBody P fuel) rounds s.exec = some exec →
      ∃ t, (system P s₀).Leads s t ∧ t.exec = exec ∧ t.place = afterRun later from
    hrounds fuel s hplace h
  intro rounds
  induction rounds with
  | zero =>
      intro s _ h
      cases h
  | succ rounds ih =>
      intro s hplace h
      obtain ⟨x, hx, hrest⟩ := Option.bind_eq_some_iff.mp h
      obtain ⟨next, scheduler, htry⟩ : ∃ next scheduler,
          tryRemoveNextTask s.exec.scheduler = (next, scheduler) := ⟨_, _, rfl⟩
      have hstep : step P s = some (runStep s later) := by simp only [step, hplace]
      rcases next with _ | handle
      · simp only [runBody, htry, Option.some.injEq] at hx
        subst hx
        refine ⟨_, leads_of_step s₀ hstep, ?_, ?_⟩
        · simp only [runStep, htry]
          exact Option.some.inj hrest
        · simp only [runStep, htry]
      · simp only [runBody, htry] at hx
        obtain ⟨exec₁, hresume, rfl⟩ := Option.map_eq_some_iff.mp hx
        obtain ⟨t₁, hstep₁, hexec₁, hplace₁⟩ : ∃ t₁, step P s = some t₁ ∧
            t₁.exec = { s.exec with scheduler := scheduler } ∧
            t₁.place = .resuming handle (.run later) := by
          refine ⟨_, hstep, ?_, ?_⟩
          · simp only [runStep, htry]
          · simp only [runStep, htry]
        rw [← hexec₁] at hresume
        obtain ⟨t₂, ht₂, rfl, hplace₂⟩ := resume_leads s₀ hplace₁ hresume
        obtain ⟨t₃, ht₃, hlast⟩ := ih t₂ hplace₂ hrest
        exact ⟨t₃, (leads_of_step s₀ hstep₁).trans (ht₂.trans ht₃), hlast⟩

/-- **Where the throttler comes to an end, so does the machine**, and with the same state. -/
theorem spawnAll_leads {scheduler : StaticQueueScheduler} {maxConcurrentTasks : BitVec 64}
    {out : ω} (h : spawnAll P fuel scheduler maxConcurrentTasks out tasks = some exec) :
    ∃ t, (system P s₀).Leads (initial scheduler maxConcurrentTasks out tasks) t ∧
      t.exec = exec ∧ t.place = .done := by
  obtain ⟨exec₁, hspawn, hrest⟩ := Option.bind_eq_some_iff.mp h
  obtain ⟨exec₂, hrun, hlast⟩ := Option.bind_eq_some_iff.mp hrest
  obtain ⟨t₁, ht₁, rfl, hplace₁⟩ := spawnMany_leads s₀
    (s := initial scheduler maxConcurrentTasks out tasks) rfl hspawn
  have hstep : step P t₁ = some { t₁ with place := .running 1 } := by simp only [step, hplace₁]
  obtain ⟨t₂, ht₂, rfl, hplace₂⟩ := run_leads s₀
    (s := { t₁ with place := .running 1 }) rfl hrun
  obtain ⟨t₃, ht₃, hexec₃, hplace₃⟩ := run_leads s₀ hplace₂ hlast
  exact ⟨t₃, ht₁.trans ((leads_of_step s₀ hstep).trans (ht₂.trans ht₃)), hexec₃, hplace₃⟩

/-- **Every chain comes back** where the throttler comes to an end: every point of the run
leads to it. -/
theorem reachable_leads_to_done {scheduler : StaticQueueScheduler}
    {maxConcurrentTasks : BitVec 64} {out : ω}
    (h : spawnAll P fuel scheduler maxConcurrentTasks out tasks = some exec)
    (hs : (system P (initial scheduler maxConcurrentTasks out tasks)).Reachable s) :
    ∃ t, (system P (initial scheduler maxConcurrentTasks out tasks)).Leads s t ∧
      t.exec = exec ∧ t.place = .done := by
  obtain ⟨t, ht, hexec, hplace⟩ :=
    spawnAll_leads (initial scheduler maxConcurrentTasks out tasks) h
  have hstuck : step P t = none := by simp only [step, hplace]
  exact ⟨t, hs.leads_to_end (fun _ h0 => h0) ht fun _ => hstuck, hexec, hplace⟩

end

end Coroutines.Throttler.Census
