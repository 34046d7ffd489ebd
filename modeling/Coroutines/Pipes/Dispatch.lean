import Coroutines.Pipes.IoContext

/-!
# The callbacks of the reactor

A pipe is registered before there is an awaiter, with a null pointer, and its entry keeps the
awaiter of the latest await when that has gone on. Epoll goes on reporting the descriptor for as
long as it is ready or hung up. So a callback is good when the coroutine of the latest await on
the descriptor is still suspended at the time that epoll reports it, and only then.
-/

namespace Coroutines.Pipes

open Transition Epoll Function

/-- Every callback was made on an awaiter whose coroutine was suspended on the descriptor, and no
coroutine went on twice from one await. -/
structure State.Orderly (s : State) : Prop where
  called : ∀ ptr, s.reactor ≠ .faulted ptr
  once : s.resumed.Nodup

/-- A pipe is built and its writable end is ready before anyone awaits it. -/
def readyBeforeAwait : List Act :=
  [.registerHandle 0 .read, .registerHandle 1 .write, .ready 1 { output := true }, .wait [1],
    .dispatch]

theorem not_orderly_before_await : ¬ ∀ s, system.Reachable s → s.Orderly := by
  intro h
  have h0 : system.Reachable (initial 1) := .init ⟨1, Nat.le_refl 1, rfl⟩
  exact (h _ (h0.run readyBeforeAwait rfl)).called none rfl

/-- The coroutine of the latest await on the pipe is suspended. -/
def State.Awaited (s : State) (pipe : Pipe) : Prop :=
  ∃ w, s.latest pipe = some w ∧ s.awaiting w.awaiter = .suspended w

/-- What epoll reports is awaited. -/
def Awaited (s : State) : Act → Prop
  | .wait fds => ∀ fd ∈ fds, ∀ pipe, s.pipes fd = some pipe → s.Awaited pipe
  | _ => True

/-! ## Awaits by their numbers -/

theorem Consistent.eq_of_number {s : State} (h : Consistent s) {v w : Await} (hv : v ∈ s.awaits)
    (hw : w ∈ s.awaits) (heq : v.number = w.number) : v = w := by
  have hnumbers : (s.awaits.map Await.number).Nodup :=
    List.pairwise_map.mpr (h.ordered.imp fun hlt => Nat.ne_of_gt hlt)
  exact List.inj_on_of_nodup_map hnumbers hv hw heq

/-- The latest await on a pipe is the one with the greatest number. -/
theorem Consistent.number_le_latest {s : State} (h : Consistent s) {pipe : Pipe} {v w : Await}
    (hv : s.latest pipe = some v) (hw : w ∈ s.awaits) (hpipe : w.pipe = pipe) :
    w.number ≤ v.number := by
  obtain ⟨-, before, after, hsplit, hbefore⟩ := List.find?_eq_some_iff_append.mp hv
  have hordered := h.ordered
  rw [hsplit] at hordered hw
  rcases List.mem_append.mp hw with hmem | hmem
  · have hoff := hbefore w hmem
    simp [hpipe] at hoff
  · rcases List.mem_cons.mp hmem with rfl | hmem
    · exact Nat.le_refl _
    · have hafter := (List.pairwise_cons.mp (List.pairwise_append.mp hordered).2.1).1
      exact Nat.le_of_lt (hafter w hmem)

/-- A suspended await is the latest on its pipe when its awaiter is the latest one's. -/
theorem Consistent.latest_eq {s : State} (h : Consistent s) {v w : Await}
    (hv : s.latest w.pipe = some v) (hw : (s.awaiting w.awaiter).await = some w)
    (heq : v.awaiter = w.awaiter) : v = w := by
  have hcurrent := h.current w.awaiter w hw
  have hmem : v ∈ s.awaits := List.mem_of_find?_eq_some hv
  have hle := hcurrent.latest v hmem heq
  have hge := h.number_le_latest hv hcurrent.mem rfl
  exact h.eq_of_number hmem hcurrent.mem (Nat.le_antisymm hle hge)

/-! ## Events -/

/-- The event is for a coroutine that is suspended on its pipe. -/
def State.Good (s : State) (event : Event) : Prop :=
  ∃ w, event.ptr = some w.awaiter ∧ s.awaiting w.awaiter = .suspended w ∧ w.pipe = event.pipe

/-- **What epoll reports** is the entry of the descriptor, and good exactly when it is awaited. -/
theorem Consistent.report_spec {s : State} (h : Consistent s) {fd : ℕ} {event : Event}
    (he : s.report fd = some event) :
    s.pipes fd = some event.pipe ∧ event.pipe.fd = fd ∧ event.events ≠ {} ∧
      (s.Good event ↔ s.Awaited event.pipe) := by
  unfold State.report at he
  split at he
  · rename_i e pipe hreport hpipe
    cases he
    obtain ⟨hfd, -, old, hold, hdata, -⟩ := h.listed fd pipe hpipe
    have hvisible : e.events ≠ {} ∧ e.data = old.data := by
      unfold Table.report at hreport
      rw [hold] at hreport
      dsimp only at hreport
      split at hreport
      · cases hreport
      · rename_i hne
        cases hreport
        exact ⟨hne, rfl⟩
    refine ⟨hpipe, hfd, hvisible.1, ?_⟩
    unfold State.Good State.Awaited
    rw [hvisible.2, hdata]
    constructor
    · rintro ⟨w, hptr, hpc, hpw⟩
      obtain ⟨v, hv, hawaiter⟩ := Option.map_eq_some_iff.mp hptr
      have hpw : w.pipe = pipe := hpw
      subst hpw
      rw [h.latest_eq hv (by rw [hpc]; rfl) hawaiter] at hv
      exact ⟨w, hv, hpc⟩
    · rintro ⟨w, hw, hpc⟩
      have hpw : w.pipe = pipe := by simpa using List.find?_some hw
      exact ⟨w, by rw [hw]; rfl, hpc, hpw⟩
  · cases he

/-- How `process_n_events` leaves the state when it is done with one event. -/
inductive Processed (s s' : State) (event : Event) : Prop
  | resumed {w : Await} (hptr : event.ptr = some w.awaiter)
      (hpc : s.awaiting w.awaiter = .suspended w) (hpipe : w.pipe = event.pipe)
      (hreactor : s'.reactor = s.reactor) (hresumed : s'.resumed = s.resumed ++ [w.number])
      (hawaiting : s'.awaiting = update s.awaiting w.awaiter .idle)
  | overtook {w : Await} (hptr : event.ptr = some w.awaiter)
      (hpc : s.awaiting w.awaiter = .writing w) (hpipe : w.pipe = event.pipe)
      (hreactor : s'.reactor = s.reactor) (hresumed : s'.resumed = s.resumed ++ [w.number])
      (hawaiting : s'.awaiting = update s.awaiting w.awaiter (.overtaken w))
  | faulted (hgood : ¬ s.Good event) (hreactor : ∃ ptr, s'.reactor = .faulted ptr)

theorem ioReadyCallback_processed {s : State} (h : Consistent s) (event : Event)
    (errorCode : ℕ) : Processed s (ioReadyCallback s event errorCode) event := by
  unfold ioReadyCallback
  split
  · rename_i hptr
    refine .faulted ?_ ⟨_, rfl⟩
    rintro ⟨w, hw, -⟩
    cases hptr.symm.trans hw
  · rename_i a hptr
    dsimp only
    have hnot : ∀ {pc}, s.awaiting a = pc → (∀ w, pc ≠ .suspended w) → ¬ s.Good event := by
      rintro pc hpc hne ⟨w, hw, hsuspended, -⟩
      cases hptr.symm.trans hw
      exact hne w (hpc.symm.trans hsuspended)
    split
    · rename_i w hpc
      have hawaiter := (h.current a w (by rw [hpc]; rfl)).awaiter_eq
      subst hawaiter
      split
      · rename_i hpipe
        exact .resumed hptr hpc hpipe rfl rfl rfl
      · rename_i hpipe
        refine .faulted ?_ ⟨_, rfl⟩
        rintro ⟨v, hv, hsuspended, hv'⟩
        rw [← Option.some.inj (hptr.symm.trans hv), hpc] at hsuspended
        cases hsuspended
        exact hpipe hv'
    · rename_i w hpc
      have hawaiter := (h.current a w (by rw [hpc]; rfl)).awaiter_eq
      subst hawaiter
      split
      · rename_i hpipe
        exact .overtook hptr hpc hpipe rfl rfl rfl
      · exact .faulted (hnot hpc nofun) ⟨_, rfl⟩
    · rename_i hsuspended hwriting
      exact .faulted (hnot rfl hsuspended) ⟨_, rfl⟩

theorem processEvent_processed {s : State} (h : Consistent s) {event : Event}
    (hfires : event.events ≠ {}) : Processed s (processEvent s event) event := by
  unfold processEvent
  split
  · exact ioReadyCallback_processed h event 0
  · rename_i hio
    split
    · exact ioReadyCallback_processed h event 1
    · rename_i hup
      -- an event that epoll reports has some bit set
      rw [Bool.or_eq_true, not_or, Bool.not_eq_true, Bool.not_eq_true] at hio hup
      exact absurd (Events.eq_empty_iff.mpr ⟨hio.1, hio.2, hup.1, hup.2⟩) hfires

/-! ## Runs in which epoll reports what is awaited -/

/-- The events that are left to process are for coroutines that are suspended, each on a pipe of
its own. -/
structure Batch (s : State) (events : List Event) : Prop where
  good : ∀ event ∈ events, event.events ≠ {} ∧ s.Good event
  apart : events.Pairwise fun e e' => e.pipe.fd ≠ e'.pipe.fd

structure Inv (s : State) : Prop extends Consistent s where
  batch : ∃ events, s.reactor = .process events ∧ Batch s events
  once : s.resumed.Nodup
  past : ∀ n ∈ s.resumed, n < s.awaits.length
  pending : ∀ a w, (s.awaiting a).await = some w → w.number ∉ s.resumed
  inTime : ∀ a w, s.awaiting a ≠ .overtaken w

theorem initial_inv (maxEvents : ℕ) : Inv (initial maxEvents) where
  toConsistent := initial_consistent maxEvents
  batch := ⟨[], rfl, fun _ hmem => absurd hmem List.not_mem_nil, .nil⟩
  once := List.nodup_nil
  past _ hn := absurd hn List.not_mem_nil
  pending _ _ h := by cases h
  inTime _ _ h := by cases h

theorem Inv.orderly {s : State} (h : Inv s) : s.Orderly where
  called ptr hptr := by
    obtain ⟨events, hevents, -⟩ := h.batch
    cases hevents.symm.trans hptr
  once := h.once

/-- A step of the interest list or of the pipes. -/
theorem Inv.aside {s s' : State} (h : Inv s) (hconsistent : Consistent s')
    (hawaiting : s'.awaiting = s.awaiting) (hreactor : s'.reactor = s.reactor)
    (hresumed : s'.resumed = s.resumed) (hawaits : s'.awaits = s.awaits) : Inv s' where
  toConsistent := hconsistent
  batch := by
    obtain ⟨events, hevents, hgood, hapart⟩ := h.batch
    refine ⟨events, hreactor.trans hevents, fun event hmem => ?_, hapart⟩
    unfold State.Good
    rw [hawaiting]
    exact hgood event hmem
  once := by
    rw [hresumed]
    exact h.once
  past := by
    rw [hresumed, hawaits]
    exact h.past
  pending := by
    rw [hawaiting, hresumed]
    exact h.pending
  inTime := by
    rw [hawaiting]
    exact h.inTime

/-- An awaiter moves that no event is for; its coroutine does not go on. -/
theorem Inv.goAwait {s s' : State} {a : ℕ} {pc : AwaitPc} (h : Inv s) (hconsistent : Consistent s')
    (ha : ∀ w, s.awaiting a ≠ .suspended w) (hawaiting : s'.awaiting = update s.awaiting a pc)
    (hreactor : s'.reactor = s.reactor) (hresumed : s'.resumed = s.resumed)
    (hawaits : s.awaits.length ≤ s'.awaits.length)
    (hpc : ∀ w, pc.await = some w → w.number ∉ s.resumed) (htime : ∀ w, pc ≠ .overtaken w) :
    Inv s' where
  toConsistent := hconsistent
  batch := by
    obtain ⟨events, hevents, hgood, hapart⟩ := h.batch
    refine ⟨events, hreactor.trans hevents, fun event hmem => ?_, hapart⟩
    obtain ⟨hfires, w, hptr, hsuspended, hpipe⟩ := hgood event hmem
    refine ⟨hfires, w, hptr, ?_, hpipe⟩
    have hne : w.awaiter ≠ a := by
      rintro rfl
      exact ha w hsuspended
    rw [hawaiting, update_of_ne hne]
    exact hsuspended
  once := by
    rw [hresumed]
    exact h.once
  past n hn := by
    rw [hresumed] at hn
    exact Nat.lt_of_lt_of_le (h.past n hn) hawaits
  pending := by
    rw [hawaiting, hresumed]
    exact (forall_update_iff s.awaiting fun _ p => ∀ w, p.await = some w → w.number ∉ s.resumed).mpr
      ⟨hpc, fun b _ => h.pending b⟩
  inTime := by
    rw [hawaiting]
    exact (forall_update_iff s.awaiting fun _ p => ∀ w, p ≠ .overtaken w).mpr
      ⟨htime, fun b _ => h.inTime b⟩

/-- **The coroutine of an await goes on**, once. -/
theorem Inv.goOn {s s' : State} {w : Await} {events : List Event} (h : Inv s)
    (hconsistent : Consistent s') (hw : (s.awaiting w.awaiter).await = some w)
    (hawaiting : s'.awaiting = update s.awaiting w.awaiter .idle)
    (hresumed : s'.resumed = s.resumed ++ [w.number]) (hawaits : s'.awaits = s.awaits)
    (hreactor : s'.reactor = .process events) (hbatch : Batch s events)
    (hother : ∀ event ∈ events, s.awaiting w.awaiter = .suspended w → w.pipe ≠ event.pipe) :
    Inv s' where
  toConsistent := hconsistent
  batch := by
    refine ⟨events, hreactor, fun event hmem => ?_, hbatch.apart⟩
    obtain ⟨hfires, v, hptr, hsuspended, hpipe⟩ := hbatch.good event hmem
    refine ⟨hfires, v, hptr, ?_, hpipe⟩
    have hne : v.awaiter ≠ w.awaiter := by
      intro heq
      rw [← heq, hsuspended] at hw
      cases hw
      exact hother event hmem hsuspended hpipe
    rw [hawaiting, update_of_ne hne]
    exact hsuspended
  once := by
    rw [hresumed]
    refine List.nodup_append.mpr ⟨h.once, List.nodup_singleton _, ?_⟩
    rintro n hn m hm rfl
    rw [List.mem_singleton.mp hm] at hn
    exact h.pending w.awaiter w hw hn
  past n hn := by
    rw [hawaits]
    rw [hresumed] at hn
    rcases List.mem_append.mp hn with hn | hn
    · exact h.past n hn
    · rw [List.mem_singleton.mp hn]
      exact (h.bounded w (h.current w.awaiter w hw).mem).1
  pending a v hv hn := by
    rw [hresumed] at hn
    have ha : a ≠ w.awaiter := by
      rintro rfl
      rw [hawaiting, update_self] at hv
      cases hv
    rw [hawaiting, update_of_ne ha] at hv
    rcases List.mem_append.mp hn with hn | hn
    · exact h.pending a v hv hn
    · have hcurrent := h.current a v hv
      have heq := h.eq_of_number hcurrent.mem (h.current w.awaiter w hw).mem
        (List.mem_singleton.mp hn)
      rw [← hcurrent.awaiter_eq, heq] at ha
      exact ha rfl
  inTime := by
    rw [hawaiting]
    exact (forall_update_iff s.awaiting fun _ p => ∀ w, p ≠ .overtaken w).mpr
      ⟨nofun, fun b _ => h.inTime b⟩

theorem awaitStep_inv {s s' : State} {a fd : ℕ} {interest : IoInterest} {pc : Await → AwaitPc}
    (h : Inv s) (hpc : ∀ w, (pc w).await = some w) (htime : ∀ v w, pc v ≠ .overtaken w)
    (hs : awaitStep s a fd interest pc = some s') : Inv s' := by
  have hconsistent := awaitStep_consistent h.toConsistent hpc hs
  unfold awaitStep at hs
  split at hs
  · rename_i pipe hidle hpipe
    split at hs
    · cases hs
      revert hconsistent
      unfold awaitSuspend
      split
      · rename_i t hset
        obtain ⟨t, ht, rfl⟩ := Option.map_eq_some_iff.mp hset
        intro hconsistent
        refine h.goAwait hconsistent (fun w => by simp [hidle]) rfl rfl rfl
          (Nat.le_succ _) (fun w hw hn => ?_) (htime _)
        -- the number of the await is new
        rw [hpc] at hw
        cases hw
        exact absurd (h.past _ hn) (Nat.lt_irrefl _)
      · exact fun _ => h
    · cases hs
  · cases hs

theorem writeStep_inv {s s' : State} {a : ℕ} {result : WriteResult} (h : Inv s)
    (hs : writeStep s a result = some s') : Inv s' := by
  have hconsistent := h.toConsistent.keep (writeStep_kept hs)
  unfold writeStep at hs
  split at hs
  · rename_i w hpc
    have hcurrent := h.current a w (by rw [hpc]; rfl)
    cases hs
    revert hconsistent
    split
    · intro hconsistent
      refine h.goAwait hconsistent (fun v => by simp [hpc]) rfl rfl rfl (Nat.le_refl _)
        (fun v hv => ?_) nofun
      apply h.pending a v
      rw [hpc]
      exact hv
    · intro hconsistent
      obtain ⟨events, hevents, hbatch⟩ := h.batch
      have ha := hcurrent.awaiter_eq
      subst ha
      apply h.goOn hconsistent (by rw [hpc]; rfl) rfl rfl rfl hevents hbatch
      intro event _ hsuspended
      rw [hpc] at hsuspended
      cases hsuspended
  · rename_i w hpc
    exact absurd hpc (h.inTime a w)
  · cases hs

theorem waitStep_inv {s s' : State} {fds : List ℕ} (h : Inv s) (hok : Awaited s (.wait fds))
    (hs : step s (.wait fds) = some s') : Inv s' := by
  have hconsistent := step_consistent h.toConsistent hs
  simp only [step] at hs
  split at hs
  · split at hs
    · rename_i hguard
      cases hs
      refine ⟨hconsistent, ⟨_, rfl, ?_, ?_⟩, h.once, h.past, h.pending, h.inTime⟩
      · intro event hmem
        obtain ⟨fd, hfd, hreport⟩ := List.mem_filterMap.mp hmem
        obtain ⟨hpipe, -, hfires, hgood⟩ := h.report_spec hreport
        exact ⟨hfires, hgood.mpr (hok fd hfd _ hpipe)⟩
      · rw [List.pairwise_filterMap]
        refine hguard.2.1.imp fun hne event hevent event' hevent' => ?_
        rw [(h.report_spec hevent).2.1, (h.report_spec hevent').2.1]
        exact hne
    · cases hs
  · cases hs

theorem dispatchStep_inv {s s' : State} (h : Inv s) (hs : step s .dispatch = some s') :
    Inv s' := by
  have hconsistent := step_consistent h.toConsistent hs
  simp only [step] at hs
  split at hs
  · rename_i event rest hreactor
    cases hs
    obtain ⟨events, hevents, hgood, hapart⟩ := h.batch
    cases hreactor.symm.trans hevents
    obtain ⟨hfires, hhead⟩ := hgood event List.mem_cons_self
    obtain ⟨happart, hrest⟩ := List.pairwise_cons.mp hapart
    have hbatch : Batch s rest := ⟨fun e he => hgood e (List.mem_cons_of_mem _ he), hrest⟩
    have hkept := Kept.refl_with s s.errorCode (.process rest)
    have hawaits := (processEvent_kept (h.toConsistent.keep hkept) event).awaits
    have hprocessed := processEvent_processed (h.toConsistent.keep hkept) hfires
    cases hprocessed with
    | resumed hptr hpc hpipe hreactor' hresumed hawaiting =>
        rename_i w
        refine h.goOn hconsistent ?_ hawaiting hresumed hawaits hreactor' hbatch ?_
        · have hpc : s.awaiting w.awaiter = .suspended w := hpc
          rw [hpc]
          rfl
        · -- the rest of the events are for other pipes
          intro e he _ heq
          rw [hpipe] at heq
          exact happart e he (congrArg Pipe.fd heq)
    | overtook hptr hpc hpipe hreactor' hresumed hawaiting =>
        rename_i w
        obtain ⟨v, hv, hsuspended, -⟩ := hhead
        have hpc : s.awaiting w.awaiter = .writing w := hpc
        rw [Option.some.inj (hptr.symm.trans hv), hsuspended] at hpc
        cases hpc
    | faulted hbad hreactor' => exact absurd hhead hbad
  · cases hs

theorem step_inv {s s' : State} {act : Act} (h : Inv s) (hok : Awaited s act)
    (hs : step s act = some s') : Inv s' := by
  have hconsistent := step_consistent h.toConsistent hs
  cases act with
  | registerHandle fd interest =>
      cases hs
      revert hconsistent
      cases hr : registerHandle s fd interest with
      | none => exact fun _ => h
      | some s' =>
          obtain ⟨t, ht, rfl⟩ := Option.map_eq_some_iff.mp hr
          exact fun hconsistent => h.aside hconsistent rfl rfl rfl rfl
  | unregisterHandle fd =>
      cases hs
      revert hconsistent
      unfold unregisterHandle
      split
      · exact fun hconsistent => h.aside hconsistent rfl rfl rfl rfl
      · exact fun _ => h
  | readSome a fd => exact awaitStep_inv h (fun _ => rfl) (by simp) hs
  | writeSome a fd => exact awaitStep_inv h (fun _ => rfl) (by simp) hs
  | write a result => exact writeStep_inv h hs
  | ready fd events =>
      cases hs
      exact h.aside hconsistent rfl rfl rfl rfl
  | wait fds => exact waitStep_inv h hok hs
  | dispatch => exact dispatchStep_inv h hs

theorem reachable_inv {s : State} (h : system.ReachableUnder Awaited s) : Inv s :=
  h.invariant (I := Inv) (by rintro _ ⟨maxEvents, -, rfl⟩; exact initial_inv maxEvents)
    fun _ _ _ hi hok hs => step_inv hi hok hs

/-! ## Reports that nobody awaits -/

/-- A callback that is not good is a fault, or overtakes a `write_some` that then goes on too. -/
theorem Consistent.fault {s : State} (h : Consistent s) {event : Event} {rest : List Event}
    (hreactor : s.reactor = .process (event :: rest)) (hfires : event.events ≠ {})
    (hbad : ¬ s.Good event) : ∃ acts u, system.run s acts = some u ∧ ¬ u.Orderly := by
  have hkept := Kept.refl_with s s.errorCode (.process rest)
  have hs : step s .dispatch = some (processEvent { s with reactor := .process rest } event) := by
    simp only [step, hreactor]
  have hprocessed := processEvent_processed (h.keep hkept) hfires
  cases hprocessed with
  | resumed hptr hpc hpipe => exact absurd ⟨_, hptr, hpc, hpipe⟩ hbad
  | overtook hptr hpc hpipe hreactor' hresumed hawaiting =>
      rename_i w
      set t := processEvent { s with reactor := .process rest } event
      have hover : t.awaiting w.awaiter = .overtaken w := by
        rw [hawaiting]
        exact update_self _ _ _
      have ht : step t (.write w.awaiter .bytes) = some (t.goOn w .idle) := by
        simp [step, writeStep, hover]
      refine ⟨[.dispatch, .write w.awaiter .bytes], t.goOn w .idle, ?_, fun horderly => ?_⟩
      · exact (System.run_cons _ hs).trans ((System.run_cons _ ht).trans rfl)
      · have honce : (t.resumed ++ [w.number]).Nodup := horderly.once
        rw [hresumed, List.append_assoc] at honce
        have htwice := (List.nodup_append.mp honce).2.1
        simp at htwice
  | faulted _ hfaulted =>
      obtain ⟨ptr, hptr⟩ := hfaulted
      exact ⟨[.dispatch], _, (System.run_cons _ hs).trans rfl,
        fun horderly => horderly.called ptr hptr⟩

/-- An event stays bad until it is its turn. -/
theorem Consistent.fault_of_mem {s : State} (h : Consistent s) {event : Event}
    {events : List Event} (hreactor : s.reactor = .process events)
    (hfires : ∀ e ∈ events, e.events ≠ {}) (hmem : event ∈ events) (hbad : ¬ s.Good event) :
    ∃ acts u, system.run s acts = some u ∧ ¬ u.Orderly := by
  induction events generalizing s with
  | nil => cases hmem
  | cons e rest ih =>
      have hfirst := hfires e List.mem_cons_self
      by_cases hgood : s.Good e
      · have hlater : event ∈ rest := by
          rcases List.mem_cons.mp hmem with rfl | hlater
          · exact absurd hgood hbad
          · exact hlater
        have hkept := Kept.refl_with s s.errorCode (.process rest)
        set t := processEvent { s with reactor := .process rest } e with ht
        have hs : step s .dispatch = some t := by
          simp only [step, hreactor, ht]
        have hprocessed := processEvent_processed (h.keep hkept) hfirst
        have hnext : t.reactor = .process rest ∧ ¬ t.Good event := by
          cases hprocessed with
          | resumed hptr hpc hpipe hreactor' hresumed hawaiting =>
              refine ⟨hreactor', fun hgood' => hbad ?_⟩
              obtain ⟨v, hv, hsuspended, hpipe'⟩ := hgood'
              refine ⟨v, hv, ?_, hpipe'⟩
              rw [hawaiting] at hsuspended
              rename_i w
              by_cases hne : v.awaiter = w.awaiter
              · rw [hne, update_self] at hsuspended
                cases hsuspended
              · rw [update_of_ne hne] at hsuspended
                exact hsuspended
          | overtook hptr hpc =>
              obtain ⟨v, hv, hsuspended, -⟩ := hgood
              have hpc := (congrArg s.awaiting (Option.some.inj (hv.symm.trans hptr))).trans hpc
              cases hsuspended.symm.trans hpc
          | faulted hbad' => exact absurd hgood hbad'
        obtain ⟨acts, u, hrun, hu⟩ := ih (step_consistent h hs) hnext.1
          (fun e he => hfires e (List.mem_cons_of_mem _ he)) hlater hnext.2
        exact ⟨.dispatch :: acts, u, (System.run_cons _ hs).trans hrun, hu⟩
      · exact h.fault hreactor hfirst hgood

/-- **A report that nobody awaits ends in a fault.** -/
theorem faults_of_not_awaited {s t : State} {act : Act} (h : Consistent s)
    (hs : step s act = some t) (hnot : ¬ Awaited s act) :
    ∃ acts u, system.run t acts = some u ∧ ¬ u.Orderly := by
  cases act with
  | wait fds =>
      have hconsistent := step_consistent h hs
      simp only [step] at hs
      split at hs
      · split at hs
        · rename_i hguard
          cases hs
          simp only [Awaited, not_forall] at hnot
          obtain ⟨fd, hfd, pipe, hpipe, hbad⟩ := hnot
          obtain ⟨event, hreport⟩ := Option.isSome_iff_exists.mp (hguard.2.2.2 fd hfd)
          have hspec := h.report_spec hreport
          refine hconsistent.fault_of_mem rfl (fun e he => ?_)
            (List.mem_filterMap.mpr ⟨fd, hfd, hreport⟩) (fun hgood => hbad ?_)
          · obtain ⟨fd', -, he'⟩ := List.mem_filterMap.mp he
            exact (h.report_spec he').2.2.1
          · cases hpipe.symm.trans hspec.1
            exact hspec.2.2.2.mp hgood
        · cases hs
      · cases hs
  | _ => exact absurd trivial hnot

/-- **The callbacks are good exactly as long as epoll reports what is awaited.** In every run in
which the coroutine of the latest await on each reported descriptor is suspended, every callback
is on an awaiter whose coroutine is suspended on that descriptor and no coroutine goes on twice
from one await; and the first report of another descriptor can be continued to a fault. -/
theorem orderly_iff_awaited (s : State) (h : system.ReachableUnder Awaited s) :
    s.Orderly ∧ ∀ act t, system.step s act = some t → ¬ Awaited s act →
      ∃ acts u, system.run t acts = some u ∧ ¬ u.Orderly := by
  have hinv := reachable_inv h
  exact ⟨hinv.orderly, fun act t hs hnot => faults_of_not_awaited hinv.toConsistent hs hnot⟩

/-- A reader waits on a pipe whose other end is closed. -/
def hungUpWhileAwaited : List Act :=
  [.registerHandle 0 .read, .readSome 8 0, .ready 0 { hangUp := true }, .wait [0], .dispatch]

theorem orderly_iff_awaited_hung_up :
    ∃ s, system.ReachableUnder Awaited s ∧ s.resumed = [0] ∧ s.awaiting 8 = .idle ∧
      s.errorCode 8 = 1 ∧ s.Orderly := by
  have hm : system.Meets Awaited (initial 1) hungUpWhileAwaited :=
    ⟨trivial, _, rfl, trivial, _, rfl, trivial, _, rfl, fun fd hfd pipe hpipe => by
      rw [List.mem_singleton.mp hfd] at hpipe
      cases hpipe
      exact ⟨_, rfl, rfl⟩, _, rfl, trivial, _, rfl, trivial⟩
  have h0 : system.ReachableUnder Awaited (initial 1) := .init ⟨1, Nat.le_refl 1, rfl⟩
  have hs := h0.run hm rfl
  exact ⟨_, hs, rfl, rfl, rfl, (orderly_iff_awaited _ hs).1⟩

end Coroutines.Pipes
