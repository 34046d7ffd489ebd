import Coroutines.Task.Handoff
import Mathlib.Data.List.Count
import Mathlib.Data.List.Perm.Basic

/-!
# Passing the suspension points of a body

At each suspension point the body hands its handle to one resumer, and it is for that
resumer to take the body past the point. As long as a `co_await` only ever resumes a
body that is still at its initial suspend, the handles that are out are exactly those of
the bodies that are suspended.
-/

namespace Coroutines.Task

open Transition Function

variable {V E : Type} {P : PromiseType V E}

/-- The handles that are out and not in use: the scheduler keeps the one it is resuming
at the front of its queue until the call returns. -/
def State.outstanding (s : State P) : List Handle :=
  s.held ++ if s.run = .front then s.tasks else s.tasks.tail

/-- The points behind the body were passed once each and in order, by whoever had been
handed the handle there. -/
def Frame.PassedInOrder (f : Frame P) : Prop :=
  f.passes = (List.range f.body.reached).map fun k => (k, some k)

/-- Every body passed its points in order; the handle for the point at which a body is
suspended is out once, and no other; no handle was resumed at the wrong time. -/
structure State.Orderly (s : State P) : Prop where
  passes : ∀ i, (s.frame i).PassedInOrder
  out : ∀ h, s.outstanding.count h =
    if (s.frame h.task).body = .suspended h.point then 1 else 0
  resumes : s.fault = none

/-- An eager task suspends on `defer_on` and is awaited; then the scheduler runs. -/
def awaitedWhileDeferred : List (Act Unit Unit) :=
  [.suspend 0 true, .await 0, .await 0, .complete 0 (.ok ()), .finalSuspend 0, .await 0,
    .await 0, .runFront]

/-- The awaiting coroutine takes the body past its suspension point and to its end, and
the scheduler resumes the frame once more. -/
theorem not_orderly_after_await_of_suspended :
    ∃ s, (system (voidTaskPromise Unit) fun _ => .eager).Reachable s ∧
      (s.frame 0).passes = [(0, none)] ∧ s.fault = some (.finished 0) ∧ ¬ s.Orderly := by
  have hr : (system (voidTaskPromise Unit) fun _ => .eager).Reachable
      (initial (voidTaskPromise Unit) fun _ => .eager) := .init rfl
  refine ⟨_, hr.run awaitedWhileDeferred rfl, rfl, rfl, fun h => ?_⟩
  cases h.resumes

/-- The loop of the scheduler has at most one body to wait for. -/
structure Inv (s : State P) : Prop extends s.Orderly where
  queue : s.run ≠ .front → s.tasks ≠ []
  alone : ∀ i, (s.frame i).body.caller = some .scheduler →
    s.run = .inResume ∧ ∀ j, (s.frame j).body.caller = some .scheduler → j = i

theorem initial_inv (kind : ℕ → Kind) : Inv (initial P kind) where
  passes i := by
    show [] = (List.range (Frame.initial P (kind i)).body.reached).map _
    rcases kind i with _ | _ | _ <;> rfl
  out h := by
    show 0 = if (Frame.initial P (kind h.task)).body = _ then 1 else 0
    rcases kind h.task with _ | _ | _ <;> rfl
  resumes := rfl
  queue hr := absurd rfl hr
  alone i hi := by
    replace hi : (Frame.initial P (kind i)).body.caller = some .scheduler := hi
    cases hk : kind i <;> rw [hk] at hi <;> cases hi

/-! ## Handles that are out -/

theorem State.giveBack_outstanding {s : State P} {c : Caller}
    (h : c = .scheduler → s.run = .inResume) :
    (s.giveBack c).outstanding = s.outstanding := by
  unfold State.giveBack
  split
  · rename_i hc
    simp [State.outstanding, h hc]
  · rfl

theorem State.count_hand {s : State P} (hq : s.run ≠ .front → s.tasks ≠ []) (x : Handle)
    (deferred : Bool) (y : Handle) :
    (s.hand x deferred).outstanding.count y =
      s.outstanding.count y + if x = y then 1 else 0 := by
  have hsingle : [x].count y = if x = y then 1 else 0 := by
    simp [List.count_singleton]
  unfold State.hand State.outstanding
  cases deferred with
  | true =>
      by_cases hr : s.run = .front
      · simp only [if_pos, hr, List.count_append, hsingle]
        omega
      · simp only [if_pos, if_neg hr, List.tail_append_of_ne_nil (hq hr), List.count_append,
          hsingle]
        omega
  | false =>
      simp only [Bool.false_eq_true, if_false, List.count_append, hsingle]
      omega

theorem State.Orderly.passes_update {s : State P} (h : s.Orderly) {i : ℕ} {f : Frame P}
    (hf : f.PassedInOrder) : ∀ j, (update s.frame i f j).PassedInOrder :=
  (forall_update_iff s.frame fun _ f => f.PassedInOrder).mpr ⟨hf, fun j _ => h.passes j⟩

/-- Who is in a call of `resume` after the frame of one task has changed. -/
theorem caller_update {g : ℕ → Frame P} {i j : ℕ} {f : Frame P} {c : Caller}
    (h : (update g i f j).body.caller = some c) :
    (j = i ∧ f.body.caller = some c) ∨ (j ≠ i ∧ (g j).body.caller = some c) := by
  by_cases hji : j = i
  · subst hji
    rw [update_self] at h
    exact Or.inl ⟨rfl, h⟩
  · rw [update_of_ne hji] at h
    exact Or.inr ⟨hji, h⟩

/-! ## Steps that move no handle -/

/-- The frame of a task changes without passing or reaching a suspension point. -/
theorem Inv.goFrame {s : State P} (h : Inv s) {i : ℕ} {f : Frame P}
    (hpasses : f.passes = (s.frame i).passes)
    (hreached : f.body.reached = (s.frame i).body.reached)
    (hsusp : ∀ k, f.body = .suspended k ↔ (s.frame i).body = .suspended k)
    (hcaller : f.body.caller = some .scheduler →
      (s.frame i).body.caller = some .scheduler) : Inv (s.set i f) := by
  have hback : ∀ j, ((s.set i f).frame j).body.caller = some .scheduler →
      (s.frame j).body.caller = some .scheduler := by
    intro j hj
    rcases caller_update hj with ⟨rfl, hf⟩ | ⟨-, hf⟩
    · exact hcaller hf
    · exact hf
  refine ⟨⟨?passes, ?out, ?resumes⟩, ?queue, ?alone⟩
  case passes =>
    apply h.passes_update
    rw [Frame.PassedInOrder, hpasses, hreached]
    exact h.passes i
  case out =>
    intro x
    rw [State.set_frame, show (s.set i f).outstanding = s.outstanding from rfl, h.out x]
    by_cases hxi : x.task = i
    · subst hxi
      rw [update_self]
      exact if_congr (hsusp _).symm rfl rfl
    · rw [update_of_ne hxi]
  case resumes => exact h.resumes
  case queue => exact h.queue
  case alone =>
    intro j hj
    obtain ⟨hr, hall⟩ := h.alone j (hback j hj)
    exact ⟨hr, fun k hk => hall k (hback k hk)⟩

/-! ## Control comes back -/

/-- The body of task `i` gives control back, and the handle for the point it suspends
at, if it does, is out from now on. -/
theorem Inv.goBack {s s' : State P} (h : Inv s) {i : ℕ} {f : Frame P} {c : Caller}
    (hc : (s.frame i).body.caller = some c)
    (hpasses : f.passes = (s.frame i).passes)
    (hreached : f.body.reached = (s.frame i).body.reached)
    (hcaller : f.body.caller = none)
    (hframe : s'.frame = update s.frame i f) (hrun : s'.run = s.run)
    (hfault : s'.fault = s.fault) (hqueue : s.tasks ≠ [] → s'.tasks ≠ [])
    (hout : ∀ x, s'.outstanding.count x = s.outstanding.count x +
      if x.task = i ∧ f.body = .suspended x.point then 1 else 0) : Inv (s'.giveBack c) := by
  have hback : ∀ j, (s'.frame j).body.caller = some .scheduler →
      j ≠ i ∧ (s.frame j).body.caller = some .scheduler := by
    intro j hj
    rw [hframe] at hj
    rcases caller_update hj with ⟨-, hf⟩ | hf
    · rw [hcaller] at hf
      cases hf
    · exact hf
  have hin : c = .scheduler → s'.run = .inResume := by
    intro hcs
    rw [hrun]
    exact (h.alone i (by rw [hc, hcs])).1
  refine ⟨⟨?passes, ?out, ?resumes⟩, ?queue, ?alone⟩
  case passes =>
    rw [State.giveBack_frame, hframe]
    apply h.passes_update
    rw [Frame.PassedInOrder, hpasses, hreached]
    exact h.passes i
  case out =>
    intro x
    rw [State.giveBack_outstanding hin, hout x, h.out x, State.giveBack_frame, hframe]
    by_cases hxi : x.task = i
    · subst hxi
      -- no handle of a running body was out
      have hns : (s.frame x.task).body ≠ .suspended x.point := by
        intro hs
        rw [hs] at hc
        cases hc
      rw [update_self, if_neg hns]
      simp
    · rw [update_of_ne hxi]
      simp [hxi]
  case resumes => rw [State.giveBack_fault, hfault, h.resumes]
  case queue =>
    intro hr
    by_cases hcs : c = .scheduler
    · have hne := h.queue (by rw [← hrun, hin hcs]; simp)
      simpa [State.giveBack, hcs] using hqueue hne
    · simp only [State.giveBack, if_neg hcs] at hr ⊢
      exact hqueue (h.queue (by rwa [← hrun]))
  case alone =>
    intro j hj
    rw [State.giveBack_frame] at hj ⊢
    obtain ⟨hji, hj⟩ := hback j hj
    obtain ⟨hr, hall⟩ := h.alone j hj
    have hcs : c ≠ .scheduler := by
      rintro rfl
      exact hji (hall i hc).symm
    refine ⟨?_, fun k hk => hall k (hback k hk).2⟩
    simp only [State.giveBack, if_neg hcs]
    rw [hrun, hr]

/-! ## A resumer uses its handle -/

/-- Of the handles for suspended bodies, the one just used is missing. -/
theorem suspended_pass {g : ℕ → Frame P} {x : Handle} {f : Frame P}
    (hb : (g x.task).body = .suspended x.point) (hf : ∀ k, f.body ≠ .suspended k)
    (y : Handle) :
    (if (g y.task).body = .suspended y.point then 1 else 0) =
      (if (update g x.task f y.task).body = .suspended y.point then 1 else 0) +
        if x = y then 1 else 0 := by
  obtain ⟨i, k⟩ := x
  obtain ⟨j, m⟩ := y
  by_cases hji : j = i
  · subst hji
    simp [hb, hf]
  · have hij : i ≠ j := Ne.symm hji
    simp [hji, hij]

/-- Whoever holds a handle that is out takes the body past the point it is for. -/
theorem Inv.pass {s t : State P} (h : Inv s) {x : Handle} {c : Caller}
    (hframe : t.frame = s.frame) (hfault : t.fault = s.fault)
    (hqueue : t.run ≠ .front → t.tasks ≠ [])
    (hout : ∀ y, s.outstanding.count y = t.outstanding.count y + if x = y then 1 else 0)
    (hsched : c = .scheduler → s.run = .front ∧ t.run = .inResume)
    (hother : c ≠ .scheduler → t.run = s.run) :
    Inv (t.resume x.task (t.frame x.task) c (some x.point)) := by
  have hb : (s.frame x.task).body = .suspended x.point := by
    by_contra hne
    have hcount := h.out x
    have hmore := hout x
    rw [if_neg hne] at hcount
    rw [if_pos rfl] at hmore
    omega
  obtain ⟨f, hres, hbody, hpasses⟩ : ∃ f : Frame P,
      t.resume x.task (t.frame x.task) c (some x.point) = t.set x.task f ∧
      f.body = .running (x.point + 1) c ∧
      f.passes = (s.frame x.task).passes ++ [(x.point, some x.point)] := by
    refine ⟨{ s.frame x.task with
      body := .running (x.point + 1) c
      passes := (s.frame x.task).passes ++ [(x.point, some x.point)] }, ?_, rfl, rfl⟩
    simp [State.resume, Frame.resume, hframe, hb]
  have hcaller : f.body.caller = some c := by rw [hbody]; rfl
  rw [hres]
  refine ⟨⟨?passes, ?out, ?resumes⟩, ?queue, ?alone⟩
  case passes =>
    rw [State.set_frame, hframe]
    apply h.passes_update
    have hp := h.passes x.task
    rw [Frame.PassedInOrder, hb] at hp
    rw [Frame.PassedInOrder, hpasses, hp, hbody]
    simp [Body.reached, List.range_succ]
  case out =>
    intro y
    have hsame := suspended_pass (f := f) hb (by simp [hbody]) y
    rw [← h.out y, hout y] at hsame
    rw [State.set_frame, hframe]
    exact Nat.add_right_cancel hsame
  case resumes => exact hfault.trans h.resumes
  case queue => exact hqueue
  case alone =>
    intro j hj
    rw [State.set_frame, hframe] at hj ⊢
    by_cases hcs : c = .scheduler
    · -- its loop was at the front, so no other body was in a call of it
      have honly : ∀ k, (update s.frame x.task f k).body.caller = some .scheduler →
          k = x.task := by
        intro k hk
        rcases caller_update hk with ⟨rfl, -⟩ | ⟨-, hf⟩
        · rfl
        · cases (hsched hcs).1.symm.trans (h.alone k hf).1
      exact ⟨(hsched hcs).2, fun k hk => (honly k hk).trans (honly j hj).symm⟩
    · have hback : ∀ k, (update s.frame x.task f k).body.caller = some .scheduler →
          (s.frame k).body.caller = some .scheduler := by
        intro k hk
        rcases caller_update hk with ⟨-, hf⟩ | ⟨-, hf⟩
        · exact absurd (Option.some.inj (hcaller.symm.trans hf)) hcs
        · exact hf
      obtain ⟨hr, hall⟩ := h.alone j (hback j hj)
      exact ⟨(hother hcs).trans hr, fun k hk => hall k (hback k hk)⟩

/-! ## Every run -/

theorem awaitStep_inv {s s' : State P} {i : ℕ} (h : Inv s)
    (hok : Starts (V := V) (E := E) s (.await i)) (hs : awaitStep s i = some s') : Inv s' := by
  simp only [awaitStep] at hs
  split at hs
  · split at hs
    · cases hs
    · split at hs <;> cases hs <;> exact h.goFrame rfl rfl (fun _ => Iff.rfl) id
  · rename_i hpc
    cases hs
    have hb := hok hpc
    have hres : s.resume i { s.frame i with awaiter := .inResume } .awaiter none =
        s.set i { s.frame i with awaiter := .inResume, body := .running 0 .awaiter } := by
      simp [State.resume, Frame.resume, hb]
    rw [hres]
    exact h.goFrame rfl (by rw [hb]; rfl) (by simp [hb]) (by simp [Body.caller])
  · cases hs
    exact h.goFrame rfl rfl (fun _ => Iff.rfl) id
  · split at hs <;> cases hs <;> exact h.goFrame rfl rfl (fun _ => Iff.rfl) id
  · cases hs

@[simp] theorem State.hand_run (s : State P) (x : Handle) (deferred : Bool) :
    (s.hand x deferred).run = s.run := by
  unfold State.hand
  split <;> rfl

theorem State.hand_tasks {s : State P} (h : s.tasks ≠ []) (x : Handle) (deferred : Bool) :
    (s.hand x deferred).tasks ≠ [] := by
  unfold State.hand
  split
  · simp
  · exact h

theorem suspendStep_inv {s s' : State P} {i : ℕ} {deferred : Bool} (h : Inv s)
    (hs : suspendStep s i deferred = some s') : Inv s' := by
  unfold suspendStep at hs
  split at hs
  · rename_i k c hb
    cases hs
    apply h.goBack (i := i) (f := { s.frame i with body := .suspended k }.giveBack c)
    case hc => rw [hb]; rfl
    case hpasses => simp
    case hreached => simp [hb, Body.reached]
    case hcaller => simp [Body.caller]
    case hframe => simp
    case hrun => exact State.hand_run _ _ _
    case hfault => exact State.hand_fault _ _ _
    case hqueue => exact fun hne => State.hand_tasks (s := s.set i _) hne _ _
    case hout =>
      rintro ⟨j, m⟩
      rw [State.count_hand (s := s.set i _) h.queue, Frame.giveBack_body]
      congr 1
      apply if_congr ?_ rfl rfl
      constructor
      · rintro ⟨⟩
        exact ⟨rfl, rfl⟩
      · rintro ⟨hj, hm⟩
        cases hj
        cases hm
        rfl
  · cases hs

theorem finalSuspendStep_inv {s s' : State P} {i : ℕ} (h : Inv s)
    (hoff : (s.frame i).Handoff i) (hs : finalSuspendStep s i = some s') : Inv s' := by
  unfold finalSuspendStep at hs
  split at hs
  · rename_i k c hb
    split at hs
    · cases hs
      exact h.goFrame rfl (by rw [hb]; rfl) (by simp [hb]) (by simp [hb, Body.caller])
    · cases hs
      refine h.goBack (by rw [hb]; rfl) (by simp) (by simp [hb, Body.reached])
        (by simp [Body.caller]) rfl rfl rfl id fun x => ?_
      rw [if_neg (by simp), Nat.add_zero]
      rfl
  · rename_i k c hb
    have hcont := hoff.stored (.inr (hoff.suspended_of_resuming (by rw [hb]; rfl)))
    rw [hcont] at hs
    cases hs
    rw [State.set_set, State.set_frame, update_self]
    refine h.goBack (by rw [hb]; rfl) (by simp) (by simp [hb, Body.reached])
      (by simp [Body.caller]) rfl rfl rfl id fun x => ?_
    rw [if_neg (by simp), Nat.add_zero]
    rfl
  · cases hs

theorem runFrontStep_inv {s s' : State P} (h : Inv s) (hs : runFrontStep s = some s') :
    Inv s' := by
  unfold runFrontStep at hs
  split at hs
  · rename_i x rest hrun htasks
    cases hs
    refine h.pass (t := { s with run := .inResume }) rfl rfl (by simp [htasks]) (fun y => ?_)
      (fun _ => ⟨hrun, rfl⟩) (fun hne => absurd rfl hne)
    simp only [State.outstanding, hrun, htasks, if_pos, List.count_append, List.tail_cons]
    rw [if_neg (by simp), List.count_cons]
    simp only [beq_iff_eq]
    omega
  · cases hs

theorem resumerStep_inv {s s' : State P} {n : ℕ} (h : Inv s)
    (hs : resumerStep s n = some s') : Inv s' := by
  unfold resumerStep at hs
  split at hs
  · rename_i x hx
    cases hs
    refine h.pass (t := { s with held := s.held.eraseIdx n }) rfl rfl h.queue (fun y => ?_)
      (by simp) (fun _ => rfl)
    obtain ⟨hn, rfl⟩ := List.getElem?_eq_some_iff.mp hx
    have hcount := (List.getElem_cons_eraseIdx_perm hn).count_eq y
    rw [List.count_cons] at hcount
    simp only [beq_iff_eq] at hcount
    simp only [State.outstanding, List.count_append]
    omega
  · cases hs

theorem step_inv {s s' : State P} {act : Act V E} (h : Inv s)
    (hoff : ∀ i, (s.frame i).Handoff i) (hok : Starts s act) (hs : step s act = some s') :
    Inv s' := by
  unfold step at hs
  split at hs
  · cases hs
  cases act with
  | start i =>
      simp only [startStep] at hs
      split at hs
      · rename_i hb
        cases hs
        have hres : s.resume i (s.frame i) .owner none =
            s.set i { s.frame i with body := .running 0 .owner } := by
          simp [State.resume, Frame.resume, hb]
        rw [hres]
        exact h.goFrame rfl (by rw [hb]; rfl) (by simp [hb]) (by simp [Body.caller])
      · cases hs
  | suspend i deferred => exact suspendStep_inv h hs
  | complete i c =>
      simp only [completeStep] at hs
      split at hs
      · rename_i k caller hb
        cases hs
        exact h.goFrame rfl (by rw [hb]; rfl) (by simp [hb]) (by simp [hb, Body.caller])
      · cases hs
  | finalSuspend i => exact finalSuspendStep_inv h (hoff i) hs
  | await i => exact awaitStep_inv h hok hs
  | runFront => exact runFrontStep_inv h hs
  | runPop =>
      simp only [runPopStep] at hs
      split at hs
      · rename_i hrun
        cases hs
        refine ⟨⟨h.passes, fun x => ?_, h.resumes⟩, fun hne => absurd rfl hne, fun i hi => ?_⟩
        · rw [← h.out x]
          simp [State.outstanding, hrun]
        · have := (h.alone i hi).1
          rw [hrun] at this
          cases this
      · cases hs
  | resumer n => exact resumerStep_inv h hs

theorem reachable_inv {kind : ℕ → Kind} {s : State P}
    (h : (system P kind).ReachableUnder Starts s) : Inv s := by
  have hboth : Inv s ∧ ∀ i, (s.frame i).Handoff i := by
    refine h.invariant (I := fun s => Inv s ∧ ∀ i, (s.frame i).Handoff i) ?_ ?_
    · rintro _ rfl
      exact ⟨initial_inv kind, fun i => handoff_initial i (kind i)⟩
    · rintro s act s' ⟨hi, hoff⟩ hok hs
      exact ⟨step_inv hi hoff hok hs, step_handoff hoff hs⟩
  exact hboth.1

/-! ## A `co_await` that comes later -/

/-- A `co_await` that resumes a body already started does what only a resumer may do, or
resumes what cannot be resumed. -/
theorem late_await_not_orderly {s s' : State P} {act : Act V E} (hfault : s.fault = none)
    (hs : step s act = some s') (hlate : ¬ Starts s act) : ¬ s'.Orderly := by
  intro hord
  cases act with
  | await i =>
      simp only [Starts, Classical.not_imp] at hlate
      obtain ⟨hpc, hb⟩ := hlate
      have hs' : s' = s.resume i { s.frame i with awaiter := .inResume } .awaiter none := by
        simp only [step, hfault, awaitStep, hpc, Option.isSome_none, Bool.false_eq_true,
          if_false, Option.some.injEq] at hs
        exact hs.symm
      cases hbody : (s.frame i).body with
      | initial => exact hb hbody
      | suspended k =>
          -- the awaiting coroutine holds no handle for this point
          have hmem : (k, none) ∈ (s'.frame i).passes := by
            rw [hs']
            simp [State.resume, Frame.resume, hbody]
          rw [show (s'.frame i).passes = _ from hord.passes i] at hmem
          simp at hmem
      | _ =>
          have hnone := hord.resumes
          rw [hs'] at hnone
          simp [State.resume, Frame.resume, hbody] at hnone
  | _ => exact hlate trivial

/-- **Suspension points are passed in order and by their resumers exactly as long as
every `co_await` that resumes a body starts it.** In every run where each does, each
suspension point is passed once, by the resumer that was handed the handle there, and no
handle is resumed out of turn; the first `co_await` that resumes a body already started
breaks this at once. -/
theorem orderly_iff_starts (P : PromiseType V E) (kind : ℕ → Kind) (s : State P)
    (h : (system P kind).ReachableUnder Starts s) :
    s.Orderly ∧ ∀ act s', (system P kind).step s act = some s' → ¬ Starts s act →
      ¬ s'.Orderly := by
  have hinv := reachable_inv h
  exact ⟨hinv.toOrderly, fun _ _ hs hlate => late_await_not_orderly hinv.resumes hs hlate⟩

/-- Two eager tasks that defer once each; the scheduler runs, and then they are awaited. -/
def finishedThenAwaited : List (Act Unit Unit) :=
  [.suspend 0 true, .suspend 1 true,
    .runFront, .complete 0 (.ok ()), .finalSuspend 0, .runPop,
    .runFront, .complete 1 (.ok ()), .finalSuspend 1, .runPop,
    .await 0, .await 1]

theorem orderly_iff_starts_finished_first :
    ∃ s, (system (voidTaskPromise Unit) fun _ => .eager).ReachableUnder Starts s ∧
      (s.frame 0).passes = [(0, some 0)] ∧ (s.frame 1).passes = [(0, some 0)] ∧
      (s.frame 0).awaiter = .continued ∧ (s.frame 1).awaiter = .continued ∧
      s.tasks = [] ∧ s.Orderly := by
  have hm : (system (voidTaskPromise Unit) fun _ => .eager).Meets Starts
      (initial (voidTaskPromise Unit) fun _ => .eager) finishedThenAwaited :=
    ⟨trivial, _, rfl, trivial, _, rfl, trivial, _, rfl, trivial, _, rfl, trivial, _, rfl,
      trivial, _, rfl, trivial, _, rfl, trivial, _, rfl, trivial, _, rfl, trivial, _, rfl,
      nofun, _, rfl, nofun, _, rfl, trivial⟩
  have h0 : (system (voidTaskPromise Unit) fun _ => .eager).ReachableUnder Starts
      (initial (voidTaskPromise Unit) fun _ => .eager) := .init rfl
  have hs := h0.run hm rfl
  exact ⟨_, hs, rfl, rfl, rfl, rfl, rfl, (orderly_iff_starts _ _ _ hs).1⟩

end Coroutines.Task
