import Coroutines.Lib.Transition
import Mathlib.Data.Nat.Notation
import Mathlib.Tactic.Common

/-!
# The queue between the timer service and its worker

`applications/timers/win-iocp/queue.hpp`. A mutex guards a buffer, and an event tells that it
was pushed to. Each operation has waits that may be alertable: the system may run an APC in the
waiting thread, which may itself use the queue, and when the APC is done the wait returns
without what it was waiting for. The return values of the waits are not looked at.
-/

namespace Coroutines.TimerQueue

open Transition System Function

variable {T : Type}

/-! ## The model -/

inductive Op (T : Type)
  | push (obj : T)
  | pop
  | tryPop

/-- What an operation does next. -/
inductive Pc
  | locking       -- `WaitForSingleObjectEx(lock, ..)`
  | pushing       -- `buffer.push(obj)`
  | checking      -- `is_empty()`
  | taking        -- `buffer.front()`
  | popping       -- `buffer.pop()`
  | signalling    -- `SignalObjectAndWait(lock, non_empty, ..)`, up to its wait
  | waiting       -- its wait
  | unlocking     -- `ReleaseMutex(lock)`
  | setting       -- `SetEvent(non_empty)`
deriving DecidableEq

/-- A call of an operation under way. -/
structure Call (T : Type) where
  op : Op T
  alertable : Bool
  pc : Pc
  popped : Option T

/-- What a thread is in: an operation, or an APC that runs in the wait below it. -/
inductive Layer (T : Type)
  | call (c : Call T)
  | apc

/-- One call of a member of the buffer, and who owned the mutex then. -/
structure Access where
  thread : ℕ
  owner : Option ℕ
deriving DecidableEq

structure State (T : Type) where
  /-- The thread that owns the mutex, and how often. -/
  lock : Option (ℕ × ℕ)
  nonEmpty : Bool
  buffer : List T
  /-- What each thread is in, the innermost layer first. -/
  layers : ℕ → List (Layer T)
  /-- History. -/
  accesses : List Access
  returned : List (ℕ × Option T)

def initial : State T where
  lock := none
  nonEmpty := false
  buffer := []
  layers := fun _ => []
  accesses := []
  returned := []

namespace State

variable (s : State T) (t : ℕ)

def owner : Option ℕ := s.lock.map Prod.fst

def access : State T := { s with accesses := s.accesses ++ [{ thread := t, owner := s.owner }] }

def setLayers (k : List (Layer T)) : State T := { s with layers := update s.layers t k }

/-- The wait for the mutex ends with it. -/
def acquire : Option (State T) :=
  match s.lock with
  | none => some { s with lock := some (t, 1) }
  | some (o, n) => if o = t then some { s with lock := some (o, n + 1) } else none

/-- `ReleaseMutex`, which fails where the thread does not own the mutex. -/
def releaseMutex : State T :=
  match s.lock with
  | none => s
  | some (o, n) =>
      if o = t then { s with lock := if n = 1 then none else some (o, n - 1) } else s

end State

/-- Where an operation goes on after a wait for the mutex, however it ended. -/
def Call.afterLock (c : Call T) : Pc :=
  match c.op with
  | .push _ => .pushing
  | .pop => .checking
  | .tryPop => .checking

/-- Where an operation goes on after a wait. -/
def Call.afterWait (c : Call T) : Pc :=
  if c.pc = .locking then c.afterLock else .locking

/-- The call `c` on top of `below` goes on. -/
def goCall (s : State T) (t : ℕ) (c : Call T) (below : List (Layer T)) : Option (State T) :=
  match c.pc with
  | .locking =>
      (s.acquire t).map fun s => s.setLayers t (.call { c with pc := c.afterLock } :: below)
  | .pushing =>
      match c.op with
      | .push obj =>
          let s := { s.access t with buffer := s.buffer ++ [obj] }
          some (s.setLayers t (.call { c with pc := .unlocking } :: below))
      | _ => none
  | .checking =>
      let pc : Pc := if s.buffer.isEmpty then
          match c.op with
          | .pop => .signalling
          | _ => .unlocking
        else .taking
      some ((s.access t).setLayers t (.call { c with pc := pc } :: below))
  | .taking => do
      let x ← s.buffer.head?
      some ((s.access t).setLayers t (.call { c with pc := .popping, popped := some x } :: below))
  | .popping =>
      let s := { s.access t with buffer := s.buffer.tail }
      some (s.setLayers t (.call { c with pc := .unlocking } :: below))
  | .signalling =>
      -- it fails where the thread does not own the mutex
      if s.owner = some t then
        some ((s.releaseMutex t).setLayers t (.call { c with pc := .waiting } :: below))
      else some (s.setLayers t (.call { c with pc := .locking } :: below))
  | .waiting =>
      if s.nonEmpty then some (s.setLayers t (.call { c with pc := .locking } :: below)) else none
  | .unlocking =>
      let s := s.releaseMutex t
      match c.op with
      | .push _ => some (s.setLayers t (.call { c with pc := .setting } :: below))
      | _ => some { s.setLayers t below with returned := s.returned ++ [(t, c.popped)] }
  | .setting => some { s.setLayers t below with nonEmpty := true }

inductive Act (T : Type)
  /-- The thread calls an operation, from its own code or from an APC. -/
  | call (t : ℕ) (op : Op T) (alertable : Bool)
  /-- The operation that the thread is in goes on. -/
  | go (t : ℕ)
  /-- An APC begins in an alertable wait, and ends it when it returns. -/
  | apc (t : ℕ)
  | apcReturn (t : ℕ)

def step (s : State T) : Act T → Option (State T)
  | .call t op alertable =>
      let c : Call T := { op := op, alertable := alertable, pc := .locking, popped := none }
      match s.layers t with
      | [] => some (s.setLayers t [.call c])
      | .apc :: below => some (s.setLayers t (.call c :: .apc :: below))
      | .call _ :: _ => none
  | .go t =>
      match s.layers t with
      | .call c :: below => goCall s t c below
      | _ => none
  | .apc t =>
      match s.layers t with
      | .call c :: below =>
          if c.alertable ∧ (c.pc = .locking ∨ c.pc = .waiting) then
            some (s.setLayers t (.apc :: .call c :: below))
          else none
      | _ => none
  | .apcReturn t =>
      match s.layers t with
      | .apc :: .call c :: below =>
          some (s.setLayers t (.call { c with pc := c.afterWait } :: below))
      | _ => none

def system : System (State T) (Act T) where
  Init s := s = initial
  step := step

/-- Every access to the buffer was made by the owner of the mutex. -/
def State.Exclusive (s : State T) : Prop := ∀ a ∈ s.accesses, a.owner = some a.thread

/-- No APC begins in a wait for the mutex. -/
def NoApcInLock (s : State T) : Act T → Prop
  | .apc t => ∀ c below, s.layers t = .call c :: below → c.pc ≠ .locking
  | _ => True

/-- The worker waits for the mutex to pop while another thread pushes, and a timer expires. -/
theorem not_exclusive_after_apc :
    ¬ ∀ s : State ℕ, system.Reachable s → s.Exclusive := by
  intro h
  have hr : (system (T := ℕ)).Reachable initial := .init rfl
  have hs := h _ (hr.run
    [.call 1 (.push 5) false, .go 1, .call 0 .pop true, .apc 0, .apcReturn 0, .go 0] rfl)
  have hlast := hs { thread := 0, owner := some 1 } (by decide)
  cases hlast

/-! ## Who owns the mutex -/

/-- Between the wait for the mutex and its release. -/
def Pc.inside : Pc → Bool
  | .pushing | .checking | .taking | .popping | .signalling | .unlocking => true
  | .locking | .waiting | .setting => false

/-- The operation on top of the stack is between the wait for the mutex and its release. -/
def inside : List (Layer T) → Bool
  | .call c :: _ => c.pc.inside
  | _ => false

/-- The operations below are in the wait of `SignalObjectAndWait`. -/
def Below (k : List (Layer T)) : Prop := ∀ c, Layer.call c ∈ k → c.pc = .waiting

/-- The owner of the mutex is the thread whose operation is inside. -/
structure Inv (s : State T) : Prop where
  lock : ∀ o n, s.lock = some (o, n) → n = 1
  owner : ∀ t, s.owner = some t ↔ inside (s.layers t) = true
  below : ∀ t, Below (s.layers t).tail
  exclusive : s.Exclusive

section
variable {s s' : State T} {t : ℕ} {k below : List (Layer T)} {c : Call T}

theorem inside_of_below (h : Below k) : inside k = false := by
  rcases k with _ | ⟨_ | _, k⟩
  · rfl
  · rename_i c
    rw [inside, h c List.mem_cons_self]
    rfl
  · rfl

@[simp] theorem inside_call : inside (.call c :: k) = c.pc.inside := rfl

theorem Below.apc (h : Below k) : Below (.apc :: k) := by
  intro c hc
  rcases List.mem_cons.mp hc with hc | hc
  · cases hc
  · exact h c hc

theorem Below.call (h : Below k) (hpc : c.pc = .waiting) : Below (.call c :: k) := by
  intro d hd
  rcases List.mem_cons.mp hd with hd | hd
  · cases hd
    exact hpc
  · exact h d hd

theorem Below.of_mem_tail (h : Below k) : Below k.tail :=
  fun c hc => h c (List.mem_of_mem_tail hc)

theorem afterLock_inside (c : Call T) : c.afterLock.inside = true := by
  rw [Call.afterLock]
  split
  · rfl
  · rfl
  · rfl

/-- An access by the owner. -/
theorem Inv.access (h : Inv s) (ht : inside (s.layers t) = true) : (s.access t).Exclusive := by
  intro a ha
  rcases List.mem_append.mp ha with ha | ha
  · exact h.exclusive a ha
  · rw [List.mem_singleton.mp ha]
    exact (h.owner t).mpr ht

theorem Inv.below_of (h : Inv s) {l : Layer T} (hlayer : s.layers t = l :: below) :
    Below below := by
  have hb := h.below t
  rw [hlayer] at hb
  exact hb

theorem Inv.below_update (h : Inv s) (hk : Below k.tail) (u : ℕ) :
    Below (update s.layers t k u).tail := by
  by_cases hu : u = t
  · rw [hu, update_self]
    exact hk
  · rw [update_of_ne hu]
    exact h.below u

/-- A thread moves and the mutex stays where it is. -/
theorem Inv.stay (h : Inv s) (hlayers : s'.layers = update s.layers t k)
    (hlock : s'.lock = s.lock) (hexclusive : s'.Exclusive) (hk : Below k.tail)
    (hinside : inside k = inside (s.layers t)) : Inv s' := by
  constructor
  case lock =>
    rw [hlock]
    exact h.lock
  case owner =>
    intro u
    rw [State.owner, hlock, hlayers]
    by_cases hu : u = t
    · rw [hu, update_self, hinside]
      exact h.owner t
    · rw [update_of_ne hu]
      exact h.owner u
  case below =>
    rw [hlayers]
    exact h.below_update hk
  case exclusive => exact hexclusive

/-- A thread takes or gives back the mutex, which no other has. -/
theorem Inv.exchange (h : Inv s) (hlayers : s'.layers = update s.layers t k)
    (hfree : ∀ u, u ≠ t → s.owner ≠ some u)
    (hlock : s'.lock = if inside k then some (t, 1) else none)
    (haccesses : s'.accesses = s.accesses) (hk : Below k.tail) : Inv s' := by
  constructor
  case lock =>
    intro o n hon
    rw [hlock] at hon
    split at hon
    · cases hon
      rfl
    · cases hon
  case owner =>
    intro u
    rw [State.owner, hlock, hlayers]
    by_cases hu : u = t
    · subst hu
      rw [update_self]
      cases inside k with
      | false => simp
      | true => simp
    · rw [update_of_ne hu, ← h.owner u]
      constructor
      · intro hown
        split at hown
        · cases hown
          exact absurd rfl hu
        · cases hown
      · intro hown
        exact absurd hown (hfree u hu)
  case below =>
    rw [hlayers]
    exact h.below_update hk
  case exclusive =>
    rw [State.Exclusive, haccesses]
    exact h.exclusive

theorem Inv.acquire (h : Inv s) (ht : inside (s.layers t) = false)
    (hacq : s.acquire t = some s') : s.lock = none ∧ s' = { s with lock := some (t, 1) } := by
  rw [State.acquire] at hacq
  split at hacq
  · rename_i hnone
    exact ⟨hnone, (Option.some.inj hacq).symm⟩
  · rename_i o n hlock
    split at hacq
    · rename_i hot
      have howner : s.owner = some t := by
        rw [State.owner, hlock, ← hot]
        rfl
      rw [(h.owner t).mp howner] at ht
      cases ht
    · cases hacq

theorem Inv.releaseMutex (h : Inv s) (ht : inside (s.layers t) = true) :
    s.releaseMutex t = { s with lock := none } := by
  obtain ⟨⟨o, n⟩, hlock, ho⟩ := Option.map_eq_some_iff.mp ((h.owner t).mpr ht)
  obtain rfl : o = t := ho
  obtain rfl : n = 1 := h.lock o n hlock
  rw [State.releaseMutex, hlock]
  simp

theorem Inv.alone (h : Inv s) (ht : inside (s.layers t) = true) :
    ∀ u, u ≠ t → s.owner ≠ some u := by
  intro u hu hown
  rw [(h.owner t).mpr ht] at hown
  exact hu (Option.some.inj hown).symm

/-! ## Every step -/

/-- The operation goes on, with or without an access. -/
theorem Inv.move (h : Inv s) (hlayer : s.layers t = .call c :: below) {c' : Call T}
    (hlayers : s'.layers = update s.layers t (.call c' :: below)) (hlock : s'.lock = s.lock)
    (hexclusive : s'.Exclusive) (hinside : c'.pc.inside = c.pc.inside) : Inv s' := by
  apply h.stay hlayers hlock hexclusive (h.below_of hlayer)
  rw [hlayer]
  exact hinside

theorem goCall_inv (h : Inv s) (hlayer : s.layers t = .call c :: below)
    (hstep : goCall s t c below = some s') : Inv s' := by
  have hbelow := h.below_of hlayer
  have hin : ∀ {pc}, c.pc = pc → pc.inside = true → inside (s.layers t) = true := by
    intro pc hpc hpcin
    rw [hlayer, inside, hpc]
    exact hpcin
  rw [goCall] at hstep
  cases hpc : c.pc with
  | locking =>
      rw [hpc] at hstep
      obtain ⟨s₁, hacq, rfl⟩ := Option.map_eq_some_iff.mp hstep
      have hout : inside (s.layers t) = false := by
        rw [hlayer, inside, hpc]
        rfl
      obtain ⟨hnone, rfl⟩ := h.acquire hout hacq
      refine h.exchange rfl (fun u _ hown => ?_) ?_ rfl hbelow
      · rw [State.owner, hnone] at hown
        cases hown
      · rw [inside, afterLock_inside]
        rfl
  | pushing =>
      have hacc := h.access (hin hpc rfl)
      rw [hpc] at hstep
      rcases hop : c.op with obj | _ | _
      · simp only [hop] at hstep
        rw [← Option.some.inj hstep]
        exact h.move hlayer rfl rfl hacc (by rw [hpc]; rfl)
      · simp only [hop] at hstep
        cases hstep
      · simp only [hop] at hstep
        cases hstep
  | checking =>
      have hacc := h.access (hin hpc rfl)
      rw [hpc] at hstep
      rw [← Option.some.inj hstep]
      refine h.move hlayer rfl rfl hacc ?_
      rw [hpc]
      split
      · split
        · rfl
        · rfl
      · rfl
  | taking =>
      have hacc := h.access (hin hpc rfl)
      rw [hpc] at hstep
      obtain ⟨x, -, heq⟩ := Option.bind_eq_some_iff.mp hstep
      rw [← Option.some.inj heq]
      exact h.move hlayer rfl rfl hacc (by rw [hpc]; rfl)
  | popping =>
      have hacc := h.access (hin hpc rfl)
      rw [hpc] at hstep
      rw [← Option.some.inj hstep]
      exact h.move hlayer rfl rfl hacc (by rw [hpc]; rfl)
  | signalling =>
      have hinside := hin hpc rfl
      simp only [hpc, if_pos ((h.owner t).mpr hinside), h.releaseMutex hinside] at hstep
      rw [← Option.some.inj hstep]
      exact h.exchange rfl (h.alone hinside) rfl rfl hbelow
  | waiting =>
      simp only [hpc] at hstep
      obtain ⟨-, heq⟩ := Option.ite_none_right_eq_some.mp hstep
      rw [← Option.some.inj heq]
      exact h.move hlayer rfl rfl h.exclusive (by rw [hpc]; rfl)
  | unlocking =>
      have hinside := hin hpc rfl
      simp only [hpc, h.releaseMutex hinside] at hstep
      have hreturn : ∀ {r : State T}, r.layers = update s.layers t below → r.lock = none →
          r.accesses = s.accesses → Inv r := by
        intro r hlayers hlock haccesses
        refine h.exchange hlayers (h.alone hinside) ?_ haccesses hbelow.of_mem_tail
        rw [inside_of_below hbelow, hlock]
        rfl
      rcases hop : c.op with obj | _ | _
      · simp only [hop] at hstep
        rw [← Option.some.inj hstep]
        exact h.exchange rfl (h.alone hinside) rfl rfl hbelow
      · simp only [hop] at hstep
        rw [← Option.some.inj hstep]
        exact hreturn rfl rfl rfl
      · simp only [hop] at hstep
        rw [← Option.some.inj hstep]
        exact hreturn rfl rfl rfl
  | setting =>
      rw [hpc] at hstep
      rw [← Option.some.inj hstep]
      refine h.stay rfl rfl h.exclusive hbelow.of_mem_tail ?_
      rw [inside_of_below hbelow, hlayer, inside, hpc]
      rfl

theorem Inv.step (h : Inv s) {act : Act T} (hok : NoApcInLock s act)
    (hstep : step s act = some s') : Inv s' := by
  cases act with
  | call u op alertable =>
      simp only [TimerQueue.step] at hstep
      split at hstep
      · rename_i hlayer
        rw [← Option.some.inj hstep]
        refine h.stay rfl rfl h.exclusive (fun _ hc => nomatch hc) ?_
        rw [hlayer]
        rfl
      · rename_i below hlayer
        rw [← Option.some.inj hstep]
        refine h.stay rfl rfl h.exclusive (h.below_of hlayer).apc ?_
        rw [hlayer]
        rfl
      · cases hstep
  | go u =>
      simp only [TimerQueue.step] at hstep
      split at hstep
      · rename_i c below hlayer
        exact goCall_inv h hlayer hstep
      · cases hstep
  | apc u =>
      simp only [TimerQueue.step] at hstep
      split at hstep
      · rename_i c below hlayer
        obtain ⟨⟨-, hpc⟩, heq⟩ := Option.ite_none_right_eq_some.mp hstep
        have hwaiting : c.pc = .waiting := hpc.resolve_left (hok c below hlayer)
        rw [← Option.some.inj heq]
        refine h.stay rfl rfl h.exclusive ((h.below_of hlayer).call hwaiting) ?_
        rw [hlayer, inside_call, hwaiting]
        rfl
      · cases hstep
  | apcReturn u =>
      simp only [TimerQueue.step] at hstep
      split at hstep
      · rename_i c below hlayer
        have hbelow := h.below_of hlayer
        have hwaiting : c.pc = .waiting := hbelow c List.mem_cons_self
        rw [← Option.some.inj hstep]
        refine h.stay rfl rfl h.exclusive hbelow.of_mem_tail ?_
        rw [hlayer, inside_call, Call.afterWait, hwaiting]
        rfl
      · cases hstep

/-! ## An APC in the wait for the mutex -/

theorem mem_access (s : State T) (t : ℕ) :
    { thread := t, owner := s.owner } ∈ (s.access t).accesses :=
  List.mem_append_right _ (List.mem_singleton_self _)

theorem goCall_checking (s : State T) (t : ℕ) (below : List (Layer T)) {c : Call T}
    (hpc : c.pc = .checking) :
    ∃ u, goCall s t c below = some u ∧ { thread := t, owner := s.owner } ∈ u.accesses := by
  apply Exists.intro
  constructor
  · simp only [goCall, hpc]
    rfl
  · exact mem_access s t

/-- An operation that goes on without the mutex accesses the buffer next. -/
theorem goCall_afterLock (s : State T) (t : ℕ) (c : Call T) (below : List (Layer T)) :
    ∃ u, goCall s t { c with pc := c.afterLock } below = some u ∧
      { thread := t, owner := s.owner } ∈ u.accesses := by
  rcases hop : c.op with obj | _ | _
  · have hpc : c.afterLock = .pushing := by rw [Call.afterLock, hop]
    apply Exists.intro
    constructor
    · simp only [goCall, hpc]
      rfl
    · exact mem_access s t
  · have hpc : c.afterLock = .checking := by rw [Call.afterLock, hop]
    exact goCall_checking s t below hpc
  · have hpc : c.afterLock = .checking := by rw [Call.afterLock, hop]
    exact goCall_checking s t below hpc

theorem Inv.apc_in_lock (h : Inv s) (hlayer : s.layers t = .call c :: below)
    (hpc : c.pc = .locking) (hstep : TimerQueue.step s (.apc t) = some s') :
    ∃ u, system.run s' [.apcReturn t, .go t] = some u ∧ ¬ u.Exclusive := by
  have hnot : s.owner ≠ some t := by
    intro hown
    have hinside := (h.owner t).mp hown
    rw [hlayer, inside, hpc] at hinside
    cases hinside
  simp only [TimerQueue.step, hlayer] at hstep
  obtain ⟨-, heq⟩ := Option.ite_none_right_eq_some.mp hstep
  have hreturn : system.step s' (.apcReturn t) =
      some (s.setLayers t (.call { c with pc := c.afterLock } :: below)) := by
    rw [← Option.some.inj heq]
    simp [system, TimerQueue.step, State.setLayers, Call.afterWait, hpc]
  obtain ⟨u, hgo, hmem⟩ := goCall_afterLock
    (s.setLayers t (.call { c with pc := c.afterLock } :: below)) t c below
  have hstepgo : system.step (s.setLayers t (.call { c with pc := c.afterLock } :: below))
      (.go t) = some u := by
    rw [← hgo]
    simp [system, TimerQueue.step, State.setLayers]
  refine ⟨u, ?_, fun hexclusive => hnot (hexclusive _ hmem)⟩
  rw [run_cons _ hreturn, run_cons _ hstepgo]
  rfl

end

/-- **The buffer is the owner's alone exactly while no APC runs in a wait for the mutex**, for
any threads, operations and APCs: as long as APCs run only in the wait for the event, every
access is made by the owner of the mutex, and after an APC in a wait for the mutex the next
access is not. -/
theorem exclusive_iff_no_apc_in_lock (s : State T)
    (h : system.ReachableUnder NoApcInLock s) :
    s.Exclusive ∧ ∀ act u, step s act = some u → ¬ NoApcInLock s act →
      ∃ acts v, system.run u acts = some v ∧ ¬ v.Exclusive := by
  have hinv : Inv s := by
    apply h.invariant
    · rintro _ rfl
      constructor
      case lock => exact fun _ _ hlock => nomatch hlock
      case owner => exact fun t => by simp [initial, State.owner, inside]
      case below => exact fun _ _ hc => nomatch hc
      case exclusive => exact fun _ ha => nomatch ha
    · exact fun _ _ _ hi hok hs => hi.step hok hs
  refine ⟨hinv.exclusive, fun act u hstep hnot => ?_⟩
  cases act with
  | apc t =>
      simp only [NoApcInLock, not_forall, not_not] at hnot
      obtain ⟨c, below, hlayer, hpc⟩ := hnot
      obtain ⟨v, hrun, hbad⟩ := hinv.apc_in_lock hlayer hpc hstep
      exact ⟨_, v, hrun, hbad⟩
  | _ => exact absurd trivial hnot

/-- The worker waits for the first object, and a timer expires meanwhile. -/
def apcWhileWaiting : List (Act ℕ) :=
  [.call 0 .pop true, .go 0, .go 0, .go 0, .apc 0, .call 0 .tryPop true, .go 0, .go 0, .go 0,
    .call 1 (.push 5) false, .go 1, .go 1, .go 1, .go 1, .apcReturn 0, .go 0, .go 0, .go 0]

theorem meets_apcWhileWaiting : system.Meets NoApcInLock initial apcWhileWaiting :=
  ⟨trivial, _, rfl, trivial, _, rfl, trivial, _, rfl, trivial, _, rfl,
    fun c below hlayer => by cases hlayer; decide, _, rfl, trivial, _, rfl, trivial, _, rfl,
    trivial, _, rfl, trivial, _, rfl, trivial, _, rfl, trivial, _, rfl, trivial, _, rfl,
    trivial, _, rfl, trivial, _, rfl, trivial, _, rfl, trivial, _, rfl, trivial, _, rfl,
    trivial, _, rfl, trivial⟩

theorem exclusive_apc_while_waiting :
    ∃ s : State ℕ, system.run initial apcWhileWaiting = some s ∧ s.accesses.length = 5 ∧
      s.Exclusive := by
  have h0 : (system (T := ℕ)).ReachableUnder NoApcInLock initial := .init rfl
  exact ⟨_, rfl, rfl, (exclusive_iff_no_apc_in_lock _ (h0.run meets_apcWhileWaiting rfl)).1⟩

end Coroutines.TimerQueue
