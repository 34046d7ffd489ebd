import Coroutines.Lib.Epoll
import Coroutines.Lib.Transition
import Mathlib.Data.List.Nodup

/-!
# The IO context of the pipes

`applications/pipes/nix-pipe`. A pipe registers its descriptor with the epoll instance of the
context when it is built, with the interest of its end and a null pointer. `await_suspend` of
`read_some` and `write_some` sets the awaiter: it modifies the entry of the descriptor, so that
its pointer is the awaiter's. `process_events` takes what epoll reports and calls
`io_ready_callback` on the pointer of each event in turn.

Descriptors and awaiters are numbers; the address of an awaiter can be used again by a later
`co_await`. Each pipe and each await carries its number, which the code does not see.
-/

namespace Coroutines.Pipes

open Transition Epoll Function

/-! ## The model -/

inductive IoInterest
  | read
  | write
deriving DecidableEq

/-- `EPOLLIN` or `EPOLLOUT`. -/
def IoInterest.eventFlags : IoInterest → Events
  | .read => { input := true }
  | .write => { output := true }

/-- The pipe that is registered on a descriptor. -/
structure Pipe where
  fd : ℕ
  interest : IoInterest
  number : ℕ
deriving DecidableEq

/-- One `co_await` of `read_some` or `write_some`. -/
structure Await where
  pipe : Pipe
  awaiter : ℕ
  number : ℕ
deriving DecidableEq

/-- Where the `co_await` with the awaiter at one address stands. -/
inductive AwaitPc
  | idle
  | writing (w : Await)      -- `await_suspend` has set the awaiter, before `::write`
  | suspended (w : Await)    -- `await_suspend` has returned true
  | overtaken (w : Await)    -- resumed before `::write`
deriving DecidableEq

/-- An element of the array that `epoll_wait` fills; `pipe` is history. -/
structure Event where
  events : Events
  ptr : Option ℕ
  pipe : Pipe

/-- Where `process_events` stands. -/
inductive ReactorPc
  | process (events : List Event)    -- in `process_n_events`, or about to wait when none is left
  | faulted (ptr : Option ℕ)         -- called back on a pointer that no suspended awaiter is at

structure State where
  maxEvents : ℕ
  /-- The interest list of `instance`. -/
  epollInstance : Table (Option ℕ)
  /-- What the descriptors are ready for. -/
  ready : ℕ → Events
  awaiting : ℕ → AwaitPc
  /-- `ioc_awaiter_base::error_code`, by the address of the awaiter. -/
  errorCode : ℕ → ℕ
  reactor : ReactorPc
  /-- The pipe on each registered descriptor. -/
  pipes : ℕ → Option Pipe
  /-- History: how many pipes were registered, the awaits that set their awaiter, the latest
  first, and those whose coroutine went on, by their numbers. -/
  registered : ℕ
  awaits : List Await
  resumed : List ℕ

/-- How `::write` ends. -/
inductive WriteResult
  | bytes
  | again
  | error
deriving DecidableEq

/-- What moves next. -/
inductive Act
  | registerHandle (fd : ℕ) (interest : IoInterest)
  | unregisterHandle (fd : ℕ)
  | readSome (a fd : ℕ)
  | writeSome (a fd : ℕ)
  | write (a : ℕ) (result : WriteResult)
  | ready (fd : ℕ) (events : Events)
  | wait (fds : List ℕ)
  | dispatch

def initial (maxEvents : ℕ) : State where
  maxEvents := maxEvents
  epollInstance := fun _ => none
  ready := fun _ => {}
  awaiting := fun _ => .idle
  errorCode := fun _ => 0
  reactor := .process []
  pipes := fun _ => none
  registered := 0
  awaits := []
  resumed := []

def State.goAwait (s : State) (a : ℕ) (pc : AwaitPc) : State :=
  { s with awaiting := update s.awaiting a pc }

/-- The coroutine of the await goes on. -/
def State.goOn (s : State) (w : Await) (pc : AwaitPc) : State :=
  { s with resumed := s.resumed ++ [w.number] }.goAwait w.awaiter pc

/-- `none` is the `system_error` that is thrown. -/
def registerHandle (s : State) (fd : ℕ) (interest : IoInterest) : Option State :=
  (s.epollInstance.add fd ⟨interest.eventFlags, none⟩).map fun t =>
    { s with
      epollInstance := t
      pipes := update s.pipes fd (some ⟨fd, interest, s.registered⟩)
      registered := s.registered + 1 }

/-- `ENOENT` is no error here. -/
def unregisterHandle (s : State) (fd : ℕ) : State :=
  match s.epollInstance.delete fd with
  | some t => { s with epollInstance := t, pipes := update s.pipes fd none }
  | none => s

/-- The `epoll_event` is zero but for the pointer. -/
def setAwaiter (s : State) (fd awaiter : ℕ) : Option State :=
  (s.epollInstance.modify fd ⟨{}, some awaiter⟩).map fun t => { s with epollInstance := t }

/-- `await_suspend` up to and with `set_awaiter`; when that throws, the coroutine goes on with
the exception. -/
def awaitSuspend (s : State) (a fd : ℕ) (pipe : Pipe) (pc : Await → AwaitPc) : State :=
  match setAwaiter s fd a with
  | some s' => { s' with awaits := ⟨pipe, a, s.awaits.length⟩ :: s.awaits }.goAwait a
      (pc ⟨pipe, a, s.awaits.length⟩)
  | none => s

/-- `read_some` or `write_some` of the pipe of that kind on the descriptor. -/
def awaitStep (s : State) (a fd : ℕ) (interest : IoInterest) (pc : Await → AwaitPc) :
    Option State :=
  match s.awaiting a, s.pipes fd with
  | .idle, some pipe =>
      if pipe.interest = interest then some (awaitSuspend s a fd pipe pc) else none
  | _, _ => none

/-- The rest of `await_suspend` of `write_some`. Unless it returns true the coroutine goes on. -/
def writeStep (s : State) (a : ℕ) (result : WriteResult) : Option State :=
  match s.awaiting a with
  | .writing w =>
      some (if result = .again then s.goAwait a (.suspended w) else s.goOn w .idle)
  | .overtaken w => some (if result = .again then s.goAwait a .idle else s.goOn w .idle)
  | _ => none

/-- `ioc_awaiter_base::io_ready_callback` for the event. -/
def ioReadyCallback (s : State) (event : Event) (errorCode : ℕ) : State :=
  match event.ptr with
  | none => { s with reactor := .faulted none }
  | some a =>
      let s := { s with errorCode := update s.errorCode a errorCode }
      match s.awaiting a with
      | .suspended w =>
          if w.pipe = event.pipe then s.goOn w .idle else { s with reactor := .faulted (some a) }
      | .writing w =>
          if w.pipe = event.pipe then s.goOn w (.overtaken w)
          else { s with reactor := .faulted (some a) }
      | _ => { s with reactor := .faulted (some a) }

/-- What the loop of `process_n_events` does with one event. -/
def processEvent (s : State) (event : Event) : State :=
  if event.events.input || event.events.output then ioReadyCallback s event 0
  else if event.events.hangUp || event.events.error then ioReadyCallback s event 1
  else s

/-- The event that epoll reports for the descriptor. -/
def State.report (s : State) (fd : ℕ) : Option Event :=
  match s.epollInstance.report fd (s.ready fd), s.pipes fd with
  | some e, some pipe => some ⟨e.events, e.data, pipe⟩
  | _, _ => none

def step (s : State) : Act → Option State
  | .registerHandle fd interest => some ((registerHandle s fd interest).getD s)
  | .unregisterHandle fd => some (unregisterHandle s fd)
  | .readSome a fd => awaitStep s a fd .read .suspended
  | .writeSome a fd => awaitStep s a fd .write .writing
  | .write a result => writeStep s a result
  | .ready fd events => some { s with ready := update s.ready fd events }
  | .wait fds =>
      match s.reactor with
      | .process [] =>
          if fds ≠ [] ∧ fds.Nodup ∧ fds.length ≤ s.maxEvents ∧ ∀ fd ∈ fds, (s.report fd).isSome then
            some { s with reactor := .process (fds.filterMap s.report) }
          else none
      | _ => none
  | .dispatch =>
      match s.reactor with
      | .process (event :: rest) => some (processEvent { s with reactor := .process rest } event)
      | _ => none

def system : System State Act where
  Init s := ∃ maxEvents, 1 ≤ maxEvents ∧ s = initial maxEvents
  step := step

/-! ## The interest list and the awaits -/

def AwaitPc.await : AwaitPc → Option Await
  | .idle => none
  | .writing w | .suspended w | .overtaken w => some w

/-- The latest await on the pipe. -/
def State.latest (s : State) (pipe : Pipe) : Option Await :=
  s.awaits.find? fun w => w.pipe = pipe

/-- The entry of a registered pipe carries the awaiter of the latest await on it, and once there
is one, no interest. -/
structure Listed (s : State) (fd : ℕ) (pipe : Pipe) : Prop where
  fd_eq : pipe.fd = fd
  lt : pipe.number < s.registered
  entry : ∃ e, s.epollInstance fd = some e ∧ e.data = (s.latest pipe).map Await.awaiter ∧
    (e.data ≠ none → e.events = {})

/-- The await is the latest one with this awaiter. -/
structure Current (s : State) (a : ℕ) (w : Await) : Prop where
  awaiter_eq : w.awaiter = a
  mem : w ∈ s.awaits
  latest : ∀ v ∈ s.awaits, v.awaiter = a → v.number ≤ w.number

structure Consistent (s : State) : Prop where
  free : ∀ fd, s.pipes fd = none → s.epollInstance fd = none
  listed : ∀ fd pipe, s.pipes fd = some pipe → Listed s fd pipe
  current : ∀ a w, (s.awaiting a).await = some w → Current s a w
  bounded : ∀ w ∈ s.awaits, w.number < s.awaits.length ∧ w.pipe.number < s.registered
  ordered : s.awaits.Pairwise fun v w => w.number < v.number

theorem initial_consistent (maxEvents : ℕ) : Consistent (initial maxEvents) where
  free _ _ := rfl
  listed _ _ h := by cases h
  current _ _ h := by cases h
  bounded w h := absurd h List.not_mem_nil
  ordered := .nil

/-- The interest list, the pipes and the awaits stand still; a coroutine may go on. -/
structure Kept (s s' : State) : Prop where
  epollInstance : s'.epollInstance = s.epollInstance
  pipes : s'.pipes = s.pipes
  registered : s'.registered = s.registered
  awaits : s'.awaits = s.awaits
  awaiting : ∀ a w, (s'.awaiting a).await = some w → (s.awaiting a).await = some w

theorem Consistent.keep {s s' : State} (h : Consistent s) (hk : Kept s s') : Consistent s' where
  free fd hfd := by
    rw [hk.pipes] at hfd
    rw [hk.epollInstance]
    exact h.free fd hfd
  listed fd pipe hpipe := by
    rw [hk.pipes] at hpipe
    obtain ⟨hfd, hlt, hentry⟩ := h.listed fd pipe hpipe
    refine ⟨hfd, ?_, ?_⟩
    · rw [hk.registered]
      exact hlt
    · rw [hk.epollInstance, State.latest, hk.awaits]
      exact hentry
  current a w hw := by
    obtain ⟨ha, hmem, hlatest⟩ := h.current a w (hk.awaiting a w hw)
    refine ⟨ha, ?_, ?_⟩ <;> rw [hk.awaits]
    · exact hmem
    · exact hlatest
  bounded := by
    rw [hk.awaits, hk.registered]
    exact h.bounded
  ordered := by
    rw [hk.awaits]
    exact h.ordered

@[simp] theorem State.goAwait_self (s : State) (a : ℕ) (pc : AwaitPc) :
    (s.goAwait a pc).awaiting a = pc := by
  simp [State.goAwait]

theorem State.goAwait_of_ne (s : State) {a b : ℕ} (pc : AwaitPc) (hba : b ≠ a) :
    (s.goAwait a pc).awaiting b = s.awaiting b := by
  simp [State.goAwait, hba]

theorem goAwait_kept {s : State} {a : ℕ} {pc : AwaitPc}
    (hpc : ∀ w, pc.await = some w → (s.awaiting a).await = some w) : Kept s (s.goAwait a pc) := by
  refine ⟨rfl, rfl, rfl, rfl, fun b w hw => ?_⟩
  by_cases hba : b = a
  · subst hba
    rw [State.goAwait_self] at hw
    exact hpc w hw
  · rw [State.goAwait_of_ne _ _ hba] at hw
    exact hw

theorem goAwait_idle_kept (s : State) (a : ℕ) : Kept s (s.goAwait a .idle) := by
  refine goAwait_kept fun w hw => ?_
  cases hw

/-- The coroutine of an await that is under way goes on. -/
theorem goOn_kept {s : State} {w : Await} {pc : AwaitPc}
    (hpc : ∀ v, pc.await = some v → (s.awaiting w.awaiter).await = some v) :
    Kept s (s.goOn w pc) := by
  obtain ⟨he, hp, hr, ha, hawaiting⟩ :=
    goAwait_kept (s := { s with resumed := s.resumed ++ [w.number] }) hpc
  exact ⟨he, hp, hr, ha, hawaiting⟩

theorem goOn_idle_kept (s : State) (w : Await) : Kept s (s.goOn w .idle) := by
  refine goOn_kept fun v hv => ?_
  cases hv

theorem writeStep_kept {s s' : State} {a : ℕ} {result : WriteResult}
    (hs : writeStep s a result = some s') : Kept s s' := by
  unfold writeStep at hs
  split at hs
  · rename_i w hpc
    cases hs
    split
    · refine goAwait_kept fun v hv => ?_
      rw [hpc]
      exact hv
    · exact goOn_idle_kept s w
  · rename_i w hpc
    cases hs
    split
    · exact goAwait_idle_kept s a
    · exact goOn_idle_kept s w
  · cases hs

theorem Kept.refl_with (s : State) (codes : ℕ → ℕ) (reactor : ReactorPc) :
    Kept s { s with errorCode := codes, reactor := reactor } :=
  ⟨rfl, rfl, rfl, rfl, fun _ _ => id⟩

theorem Kept.trans {s t u : State} (h : Kept s t) (h' : Kept t u) : Kept s u where
  epollInstance := h'.epollInstance.trans h.epollInstance
  pipes := h'.pipes.trans h.pipes
  registered := h'.registered.trans h.registered
  awaits := h'.awaits.trans h.awaits
  awaiting a w hw := h.awaiting a w (h'.awaiting a w hw)

theorem ioReadyCallback_kept {s : State} (h : Consistent s) (event : Event) (errorCode : ℕ) :
    Kept s (ioReadyCallback s event errorCode) := by
  unfold ioReadyCallback
  split
  · exact Kept.refl_with s s.errorCode _
  · rename_i a _
    have hcode := Kept.refl_with s (update s.errorCode a errorCode) s.reactor
    dsimp only
    split
    · rename_i w hpc
      split
      · exact hcode.trans (goOn_idle_kept _ w)
      · exact Kept.refl_with s _ _
    · rename_i w hpc
      have hawaiter := (h.current a w (by rw [hpc]; rfl)).awaiter_eq
      split
      · refine hcode.trans (goOn_kept fun v hv => ?_)
        rw [hawaiter, hpc]
        exact hv
      · exact Kept.refl_with s _ _
    · exact Kept.refl_with s _ _

theorem processEvent_kept {s : State} (h : Consistent s) (event : Event) :
    Kept s (processEvent s event) := by
  unfold processEvent
  split
  · exact ioReadyCallback_kept h event 0
  · split
    · exact ioReadyCallback_kept h event 1
    · exact Kept.refl_with s s.errorCode s.reactor

theorem State.latest_eq_none {s : State} {pipe : Pipe} (h : ∀ w ∈ s.awaits, w.pipe ≠ pipe) :
    s.latest pipe = none := by
  apply List.find?_eq_none.mpr
  intro w hw
  simpa using h w hw

/-- **A descriptor changes hands**: its entry and its pipe are replaced, and the others stay. -/
theorem Consistent.replace {s : State} (h : Consistent s) {fd registered : ℕ}
    {entry : Option (Epoll.Entry (Option ℕ))} {pipe : Option Pipe}
    (hregistered : s.registered ≤ registered) (hfree : pipe = none → entry = none)
    (hlisted : ∀ p, pipe = some p → p.fd = fd ∧ p.number < registered ∧
      ∃ e, entry = some e ∧ e.data = (s.latest p).map Await.awaiter ∧
        (e.data ≠ none → e.events = {})) :
    Consistent { s with
      epollInstance := update s.epollInstance fd entry
      pipes := update s.pipes fd pipe
      registered := registered } := by
  constructor
  case free =>
    intro fd' hfd'
    by_cases hne : fd' = fd
    · subst hne
      dsimp only at hfd' ⊢
      rw [update_self] at hfd' ⊢
      exact hfree hfd'
    · dsimp only at hfd' ⊢
      rw [update_of_ne hne] at hfd' ⊢
      exact h.free fd' hfd'
  case listed =>
    intro fd' pipe' hpipe'
    by_cases hne : fd' = fd
    · subst hne
      dsimp only at hpipe'
      rw [update_self] at hpipe'
      obtain ⟨hfd, hlt, hentry⟩ := hlisted pipe' hpipe'
      refine ⟨hfd, hlt, ?_⟩
      dsimp only
      rw [update_self]
      exact hentry
    · dsimp only at hpipe'
      rw [update_of_ne hne] at hpipe'
      obtain ⟨hfd, hlt, hentry⟩ := h.listed fd' pipe' hpipe'
      refine ⟨hfd, Nat.lt_of_lt_of_le hlt hregistered, ?_⟩
      dsimp only
      rw [update_of_ne hne]
      exact hentry
  case current =>
    intro a w hw
    obtain ⟨ha, hmem, hlatest⟩ := h.current a w hw
    exact ⟨ha, hmem, hlatest⟩
  case bounded =>
    intro w hw
    obtain ⟨hnumber, hpipe⟩ := h.bounded w hw
    exact ⟨hnumber, Nat.lt_of_lt_of_le hpipe hregistered⟩
  case ordered => exact h.ordered

theorem registerHandle_consistent {s s' : State} {fd : ℕ} {interest : IoInterest}
    (h : Consistent s) (hs : registerHandle s fd interest = some s') : Consistent s' := by
  obtain ⟨t, ht, rfl⟩ := Option.map_eq_some_iff.mp hs
  obtain ⟨-, rfl⟩ := Table.add_eq_some ht
  apply h.replace (Nat.le_succ _)
  · intro hnone
    cases hnone
  · intro p hp
    cases hp
    have hnone : s.latest ⟨fd, interest, s.registered⟩ = none := by
      apply State.latest_eq_none
      intro w hw hwp
      have hlt := (h.bounded w hw).2
      rw [hwp] at hlt
      exact Nat.lt_irrefl _ hlt
    refine ⟨rfl, Nat.lt_succ_self _, _, rfl, ?_, fun hnull => absurd rfl hnull⟩
    rw [hnone]
    rfl

theorem unregisterHandle_consistent {s : State} (h : Consistent s) (fd : ℕ) :
    Consistent (unregisterHandle s fd) := by
  unfold unregisterHandle
  split
  · rename_i t ht
    obtain rfl := Table.delete_eq_some ht
    apply h.replace (Nat.le_refl _)
    · exact fun _ => rfl
    · intro p hp
      cases hp
  · exact h

/-- **An await** sets its awaiter, and clears the interest. -/
theorem awaitStep_consistent {s s' : State} {a fd : ℕ} {interest : IoInterest}
    {pc : Await → AwaitPc} (h : Consistent s) (hpc : ∀ w, (pc w).await = some w)
    (hs : awaitStep s a fd interest pc = some s') : Consistent s' := by
  unfold awaitStep at hs
  split at hs
  · rename_i pipe hidle hpipe
    split at hs
    · rename_i hinterest
      cases hs
      unfold awaitSuspend
      split
      · rename_i t hset
        obtain ⟨t, ht, rfl⟩ := Option.map_eq_some_iff.mp hset
        obtain ⟨-, rfl⟩ := Table.modify_eq_some ht
        obtain ⟨hfd, hlt, -⟩ := h.listed fd pipe hpipe
        constructor
        case free =>
          intro fd' hfd'
          have hne : fd' ≠ fd := by
            rintro rfl
            cases hpipe.symm.trans hfd'
          exact (update_of_ne hne _ _).trans (h.free fd' hfd')
        case listed =>
          intro fd' pipe' hpipe'
          by_cases hne : fd' = fd
          · subst hne
            cases hpipe.symm.trans hpipe'
            refine ⟨hfd, hlt, _, update_self _ _ _, ?_, fun _ => rfl⟩
            simp [State.latest, State.goAwait]
          · obtain ⟨hfd', hlt', hentry⟩ := h.listed fd' pipe' hpipe'
            refine ⟨hfd', hlt', ?_⟩
            -- the new await is on another descriptor
            have hpne : pipe ≠ pipe' := by
              rintro rfl
              exact hne (hfd'.symm.trans hfd)
            simpa [State.latest, State.goAwait, hne, hpne] using hentry
        case current =>
          intro b w hw
          by_cases hba : b = a
          · subst hba
            rw [State.goAwait_self, hpc] at hw
            cases hw
            refine ⟨rfl, List.mem_cons_self, fun v hv _ => ?_⟩
            rcases List.mem_cons.mp hv with rfl | hv
            · exact Nat.le_refl _
            · exact Nat.le_of_lt (h.bounded v hv).1
          · rw [State.goAwait_of_ne _ _ hba] at hw
            obtain ⟨hb, hmem, hlatest⟩ := h.current b w hw
            refine ⟨hb, List.mem_cons_of_mem _ hmem, fun v hv hvb => ?_⟩
            rcases List.mem_cons.mp hv with rfl | hv
            · exact absurd hvb (Ne.symm hba)
            · exact hlatest v hv hvb
        case bounded =>
          intro v hv
          rcases List.mem_cons.mp hv with rfl | hv
          · exact ⟨Nat.lt_succ_self _, hlt⟩
          · obtain ⟨hnumber, hregistered⟩ := h.bounded v hv
            exact ⟨Nat.lt_succ_of_lt hnumber, hregistered⟩
        case ordered =>
          refine List.pairwise_cons.mpr ⟨fun v hv => ?_, h.ordered⟩
          exact (h.bounded v hv).1
      · exact h
    · cases hs
  · cases hs

theorem step_consistent {s s' : State} {act : Act} (h : Consistent s)
    (hs : step s act = some s') : Consistent s' := by
  cases act with
  | registerHandle fd interest =>
      cases hs
      cases hr : registerHandle s fd interest with
      | none => exact h
      | some s' => exact registerHandle_consistent h hr
  | unregisterHandle fd =>
      cases hs
      exact unregisterHandle_consistent h fd
  | readSome a fd => exact awaitStep_consistent h (fun _ => rfl) hs
  | writeSome a fd => exact awaitStep_consistent h (fun _ => rfl) hs
  | write a result => exact h.keep (writeStep_kept hs)
  | ready fd events =>
      cases hs
      exact h.keep ⟨rfl, rfl, rfl, rfl, fun _ _ => id⟩
  | wait fds =>
      simp only [step] at hs
      split at hs
      · split at hs
        · cases hs
          exact h.keep (Kept.refl_with s s.errorCode _)
        · cases hs
      · cases hs
  | dispatch =>
      simp only [step] at hs
      split at hs
      · rename_i event rest _
        cases hs
        have hrest := h.keep (Kept.refl_with s s.errorCode (.process rest))
        exact hrest.keep (processEvent_kept hrest event)
      · cases hs

theorem reachable_consistent {ok : State → Act → Prop} {s : State}
    (h : system.ReachableUnder ok s) : Consistent s :=
  h.invariant (I := Consistent)
    (by rintro _ ⟨maxEvents, -, rfl⟩; exact initial_consistent maxEvents)
    fun _ _ _ hi _ hs => step_consistent hi hs

end Coroutines.Pipes
