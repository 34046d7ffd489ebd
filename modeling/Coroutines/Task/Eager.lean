import Coroutines.Task.Suspension

/-!
# Tasks that start at once

`initial_suspend` returns `suspend_never` in `libcoro/task.hpp` as it does in
`libcoro/eager_task.hpp`: the call that makes a task runs its body up to the first suspension
point. To await the task resumes the body all the same, and so does `task::resume`, which is
there to start it. Neither of them has been handed a handle.
-/

namespace Coroutines.Task

open Transition Function

variable {V E : Type} {P : PromiseType V E}

/-- `task::resume`, which an owner calls at any time. -/
def ownerStep (s : State P) (i : ℕ) : Option (State P) :=
  if (s.frame i).body.caller = some .creation then none
  else if (s.frame i).body.done then some s
  else some (s.resume i (s.frame i) .owner none)

/-- What moves next, the owners among it. -/
inductive Move (V E : Type)
  | act (a : Act V E)
  | resume (i : ℕ)

def move (s : State P) : Move V E → Option (State P)
  | .act a => step s a
  | .resume i => if s.fault.isSome then none else ownerStep s i

def program (P : PromiseType V E) (kind : ℕ → Kind) : System (State P) (Move V E) where
  Init s := s = initial P kind
  step := move

/-- A task is awaited, or resumed by its owner, when its body has finished. -/
def Finished (s : State P) : Move V E → Prop
  | .act (.await i) => (s.frame i).awaiter = .idle → (s.frame i).awaitReady = true
  | .resume i => (s.frame i).body.done = true
  | _ => True

/-! ## Nothing is left to be started -/

/-- The body has been started, and no `co_await` has got past `await_ready`. -/
structure Frame.Eager (f : Frame P) : Prop where
  started : f.body ≠ .initial
  awaiter : f.awaiter = .idle ∨ f.awaiter = .continued

theorem eager_initial {kind : Kind} (h : kind ≠ .lazy) : (Frame.initial P kind).Eager where
  started := by
    cases kind with
    | lazy => exact absurd rfl h
    | empty | eager => exact nofun
  awaiter := .inl rfl

theorem Frame.Eager.keep {f f' : Frame P} (h : f.Eager) (hb : f'.body ≠ .initial)
    (ha : f'.awaiter = f.awaiter) : f'.Eager := by
  refine ⟨hb, ?_⟩
  rw [ha]
  exact h.awaiter

theorem Frame.Eager.giveBack {f : Frame P} (h : f.Eager) {c : Caller} (hc : c ≠ .awaiter) :
    (f.giveBack c).Eager := by
  rw [Frame.giveBack, if_neg hc]
  exact h

theorem Frame.Eager.resume {f f' : Frame P} (h : f.Eager) {i : ℕ} {c : Caller}
    {point : Option ℕ} (hr : f.resume i c point = .ok f') : f'.Eager := by
  unfold Frame.resume at hr
  split at hr
  · cases hr
  · rename_i hb
    exact absurd hb h.started
  · cases hr
    exact ⟨nofun, h.awaiter⟩
  · cases hr
  · cases hr
  · cases hr
  · cases hr

/-- No `co_await` has a body run in its own `resume`. -/
theorem Frame.Eager.caller {f : Frame P} {i : ℕ} (h : f.Eager) (hoff : f.Handoff i) {c : Caller}
    (hc : f.body.caller = some c) : c ≠ .awaiter := by
  rintro rfl
  have hin := hoff.called.mpr hc
  rcases h.awaiter with hpc | hpc
  · rw [hpc] at hin
    cases hin
  · rw [hpc] at hin
    cases hin

theorem eager_set {s : State P} (h : ∀ j, (s.frame j).Eager) {i : ℕ} {f : Frame P}
    (hf : f.Eager) : ∀ j, ((s.set i f).frame j).Eager :=
  (forall_update_iff s.frame fun _ f => f.Eager).mpr ⟨hf, fun j _ => h j⟩

theorem eager_resume {s : State P} (h : ∀ j, (s.frame j).Eager) {i : ℕ} {c : Caller}
    {point : Option ℕ} (j : ℕ) : ((s.resume i (s.frame i) c point).frame j).Eager := by
  unfold State.resume
  split
  · rename_i f' hok
    exact eager_set h ((h i).resume hok) j
  · exact h j

/-! ## What each step keeps -/

theorem finalSuspendStep_eager {s s' : State P} {i : ℕ} (h : ∀ j, (s.frame j).Eager)
    (hoff : (s.frame i).Handoff i) (hs : finalSuspendStep s i = some s') (j : ℕ) :
    (s'.frame j).Eager := by
  unfold finalSuspendStep at hs
  split at hs
  · rename_i k c hb
    split at hs
    · cases hs
      refine eager_set h ?_ j
      exact (h i).keep nofun rfl
    · cases hs
      rw [State.giveBack_frame]
      refine eager_set h (Frame.Eager.giveBack ?_ ?_) j
      · exact (h i).keep nofun rfl
      · exact (h i).caller hoff (by rw [hb]; rfl)
  · -- a continuation was stored by a `co_await` that got past `await_ready`
    rename_i k c hb
    have hwaits := hoff.suspended_of_resuming (by rw [hb]; rfl)
    rcases (h i).awaiter with hpc | hpc
    · rw [hpc] at hwaits
      cases hwaits
    · rw [hpc] at hwaits
      cases hwaits
  · cases hs

theorem awaitStep_eager {s s' : State P} {i : ℕ} (h : ∀ j, (s.frame j).Eager)
    (hok : Finished (V := V) (E := E) s (.act (.await i))) (hs : awaitStep s i = some s')
    (j : ℕ) : (s'.frame j).Eager := by
  simp only [awaitStep] at hs
  rcases (h i).awaiter with hpc | hpc
  · simp only [hpc, hok hpc, if_true] at hs
    split at hs
    · cases hs
    · cases hs
      refine eager_set h ?_ j
      exact ⟨(h i).started, .inr rfl⟩
  · simp only [hpc] at hs
    cases hs

theorem step_eager {s s' : State P} {a : Act V E} (h : ∀ j, (s.frame j).Eager)
    (hoff : ∀ j, (s.frame j).Handoff j) (hok : Finished s (.act a)) (hs : step s a = some s')
    (j : ℕ) : (s'.frame j).Eager := by
  unfold step at hs
  split at hs
  · cases hs
  cases a with
  | start i =>
      simp only [startStep] at hs
      split at hs
      · cases hs
        exact eager_resume h j
      · cases hs
  | suspend i deferred =>
      simp only [suspendStep] at hs
      split at hs
      · rename_i k c hb
        cases hs
        rw [State.giveBack_frame, State.hand_frame]
        refine eager_set h (Frame.Eager.giveBack ?_ ?_) j
        · exact (h i).keep (by rintro ⟨⟩) rfl
        · exact (h i).caller (hoff i) (by rw [hb]; rfl)
      · cases hs
  | complete i c =>
      simp only [completeStep] at hs
      split at hs
      · cases hs
        refine eager_set h ?_ j
        exact (h i).keep (by rintro ⟨⟩) rfl
      · cases hs
  | finalSuspend i => exact finalSuspendStep_eager h (hoff i) hs j
  | await i => exact awaitStep_eager h hok hs j
  | runFront =>
      simp only [runFrontStep] at hs
      split at hs
      · cases hs
        exact eager_resume (s := { s with run := .inResume }) h j
      · cases hs
  | runPop =>
      simp only [runPopStep] at hs
      split at hs
      · cases hs
        exact h j
      · cases hs
  | resumer n =>
      simp only [resumerStep] at hs
      split at hs
      · cases hs
        exact eager_resume (s := { s with held := s.held.eraseIdx n }) h j
      · cases hs

/-- As long as only finished tasks are awaited or resumed, no `co_await` resumes anything. -/
theorem reachable_eager {kind : ℕ → Kind} (hkind : ∀ i, kind i ≠ .lazy) {s : State P}
    (h : (program P kind).ReachableUnder Finished s) :
    (system P kind).ReachableUnder Starts s ∧ ∀ i, (s.frame i).Eager := by
  apply h.invariant
    (I := fun s => (system P kind).ReachableUnder Starts s ∧ ∀ i, (s.frame i).Eager)
  · rintro _ rfl
    exact ⟨.init rfl, fun i => eager_initial (hkind i)⟩
  · rintro s (a | i) t ⟨hreach, heager⟩ hok hs
    · have hstarts : Starts s a := by
        cases a with
        | await i =>
            intro hpc
            rcases (heager i).awaiter with hidle | hidle
            · rw [hpc] at hidle
              cases hidle
            · rw [hpc] at hidle
              cases hidle
        | _ => trivial
      refine ⟨.step hreach hstarts hs, fun i => ?_⟩
      exact step_eager heager (reachable_handoff hreach.reachable) hok hs i
    · -- `task::resume` does nothing to a finished body
      have hdone : (s.frame i).body.done = true := hok
      replace hs : (if s.fault.isSome then none else ownerStep s i) = some t := hs
      split at hs
      · cases hs
      simp only [ownerStep, hdone, if_true] at hs
      split at hs
      · cases hs
      · cases hs
        exact ⟨hreach, heager⟩

/-! ## A task that has not finished -/

theorem not_orderly_of_fault {s : State P} {e : Fault} (h : s.fault = some e) : ¬ s.Orderly := by
  intro hord
  rw [hord.resumes] at h
  cases h

/-- An owner that resumes a suspended body has not been handed the handle. -/
theorem owner_not_orderly {s t : State P} {i : ℕ} (hstarted : (s.frame i).body ≠ .initial)
    (hdone : ¬ (s.frame i).body.done = true) (hs : ownerStep s i = some t) : ¬ t.Orderly := by
  by_cases hcreation : (s.frame i).body.caller = some .creation
  · rw [ownerStep, if_pos hcreation] at hs
    cases hs
  rw [ownerStep, if_neg hcreation, if_neg hdone] at hs
  cases hs
  cases hb : (s.frame i).body with
  | initial => exact absurd hb hstarted
  | absent =>
      apply not_orderly_of_fault (e := .nullHandle)
      simp only [State.resume, Frame.resume, hb]
  | running k c =>
      apply not_orderly_of_fault (e := .running i)
      simp only [State.resume, Frame.resume, hb]
  | suspended k =>
      intro hord
      have hpasses := hord.passes i
      have hmem : (k, none) ∈ ((s.resume i (s.frame i) .owner none).frame i).passes := by
        simp [State.resume, Frame.resume, hb]
      rw [hpasses] at hmem
      simp at hmem
  | exchange k c | resume k c | finished k =>
      rw [hb] at hdone
      exact absurd rfl hdone

/-- A `co_await` that finds its task unfinished goes on to resume it. -/
theorem await_not_orderly {s t : State P} {i : ℕ} (hfault : s.fault = none)
    (hstarted : (s.frame i).body ≠ .initial) (hidle : (s.frame i).awaiter = .idle)
    (hready : ¬ (s.frame i).awaitReady = true)
    (hs : step s (.await i : Act V E) = some t) :
    ∃ u, step t (.await i : Act V E) = some u ∧ ¬ u.Orderly := by
  have hstep : awaitStep s i = some t := by
    simpa only [step, hfault, Option.isSome_none, Bool.false_eq_true, if_false] using hs
  have ht : t = s.set i { s.frame i with awaiter := .resume } := by
    by_cases hcreation : (s.frame i).body.caller = some .creation
    · simp only [awaitStep, hidle, if_pos hcreation] at hstep
      cases hstep
    · simp only [awaitStep, hidle, if_neg hcreation, if_neg hready] at hstep
      exact (Option.some.inj hstep).symm
  have hframe : t.frame i = { s.frame i with awaiter := .resume } := by
    rw [ht, State.set_frame, update_self]
  have htfault : t.fault = none := by
    rw [ht]
    exact hfault
  have hnext : step t (.await i : Act V E) =
      some (t.resume i { t.frame i with awaiter := .inResume } .awaiter none) := by
    simp only [step, htfault, Option.isSome_none, Bool.false_eq_true, if_false, awaitStep, hframe]
  refine ⟨_, hnext, late_await_not_orderly htfault hnext fun hstarts => ?_⟩
  have hinitial := hstarts (by rw [hframe])
  rw [hframe] at hinitial
  exact hstarted hinitial

/-- **A task is of use once it has finished**: its suspension points are passed in order and by
their resumers exactly as long as nobody awaits or resumes a task whose body has not. -/
theorem orderly_iff_finished (P : PromiseType V E) (kind : ℕ → Kind)
    (hkind : ∀ i, kind i ≠ .lazy) :
    (∀ s, (program P kind).ReachableUnder Finished s → s.Orderly) ∧
      (program P kind).Breaks Finished State.Orderly := by
  constructor
  · intro s h
    exact (reachable_inv (reachable_eager hkind h).1).toOrderly
  · intro s m t h hs hnot
    obtain ⟨hreach, heager⟩ := reachable_eager hkind h
    have hfault := (reachable_inv hreach).resumes
    cases m with
    | resume i =>
        replace hs : (if s.fault.isSome then none else ownerStep s i) = some t := hs
        rw [hfault, Option.isSome_none, if_neg Bool.false_ne_true] at hs
        exact ⟨[], t, rfl, owner_not_orderly (heager i).started hnot hs⟩
    | act a =>
        cases a with
        | await i =>
            obtain ⟨hidle, hready⟩ := Classical.not_imp.mp hnot
            obtain ⟨u, hu, hbroken⟩ :=
              await_not_orderly hfault (heager i).started hidle hready hs
            refine ⟨[.act (.await i)], u, ?_, hbroken⟩
            exact System.run_cons (S := program P kind) [] hu
        | _ => exact absurd trivial hnot

/-- A task defers once; it is awaited when the scheduler has run. -/
def awaitedAfterwards : List (Move ℕ String) :=
  [.act (.suspend 0 true), .act .runFront, .act (.complete 0 (.ok 5)), .act (.finalSuspend 0),
    .act .runPop, .resume 0, .act (.await 0)]

theorem orderly_iff_finished_afterwards :
    ∃ s, (program (taskPromise ℕ String) fun _ => .eager).run (initial _ fun _ => .eager)
        awaitedAfterwards = some s ∧
      (s.frame 0).routes = [.ready] ∧ (s.frame 0).awaitResume = .value 5 ∧ s.Orderly := by
  have hm : (program (taskPromise ℕ String) fun _ => .eager).Meets Finished
      (initial _ fun _ => .eager) awaitedAfterwards :=
    ⟨trivial, _, rfl, trivial, _, rfl, trivial, _, rfl, trivial, _, rfl, trivial, _, rfl, rfl, _,
      rfl, fun _ => rfl, _, rfl, trivial⟩
  have h0 : (program (taskPromise ℕ String) fun _ => .eager).ReachableUnder Finished
      (initial _ fun _ => .eager) := .init rfl
  have hkind : ∀ _ : ℕ, Kind.eager ≠ .lazy := fun _ => by decide
  exact ⟨_, rfl, rfl, rfl, (orderly_iff_finished _ (fun _ => .eager) hkind).1 _ (h0.run hm rfl)⟩

/-- A task has deferred itself, and its owner resumes it; then the scheduler runs. -/
example : ∃ s, (program (voidTaskPromise Unit) fun _ => .eager).run (initial _ fun _ => .eager)
    [.act (.suspend 0 true), .resume 0, .act (.complete 0 (.ok ())), .act (.finalSuspend 0),
      .act .runFront] = some s ∧ s.fault = some (.finished 0) :=
  ⟨_, rfl, rfl⟩

end Coroutines.Task
