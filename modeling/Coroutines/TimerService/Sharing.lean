import Coroutines.TimerService.Timeouts

/-!
# Timer objects that requests share

A caller may post several requests with one timer object, and may close it. If the worker sets a
timer object on which another request waits, that request is lost: its handler is never called, and
the worker waits for it for ever when the service is shut down. In runs where this does not
happen, the service with timer objects is the service without.
-/

namespace Coroutines.TimerService.Requests

open Transition Tally Function

/-- No request waits for the timer object. -/
def State.Idle (s : State) (timer : ℕ) : Prop :=
  ∀ r, r ∈ s.service.armed ∨ Apc.expired r ∈ s.service.apcs → s.uses timer r = false

/-- A timer object is set when it is there and no request waits for it, and closed when none
does. -/
def Apart (s : State) : Act → Prop
  | .service .work => ∀ r pc request, arming s.service.worker = some (r, pc) →
      s.request r = some request →
      (s.handles request.timerObject).isSome ∧ s.Idle request.timerObject
  | .service (.react k) => ∀ r request, s.service.reactors[k]? = some (.handle r) →
      s.request r = some request → request.ownedTimer = true →
      (s.handles request.timerObject).isSome → s.Idle request.timerObject
  | .close timer => s.Idle timer
  | _ => True

/-- In how many places the request is, the past call of its handler among them. -/
def State.places (s : State) (r : ℕ) : ℕ :=
  s.service.inflight (single r) + s.service.handling (single r) + s.service.handled r

/-- Every request that was pushed is in one place until it is handled. -/
def State.Kept (s : State) : Prop := ∀ r, s.service.pushed r = 1 → s.places r = 1

/-! ## What a timer object forgets -/

section
variable {s : State} {timer : ℕ}

theorem cancel_of_idle (h : s.Idle timer) : s.cancel timer = s := by
  have harmed : s.service.armed.filter (fun r => !s.uses timer r) = s.service.armed := by
    apply List.filter_eq_self.mpr
    intro r hr
    rw [h r (.inl hr)]
    rfl
  have happ : s.service.apcs.filter (fun apc => !(expired apc).any (s.uses timer)) =
      s.service.apcs := by
    apply List.filter_eq_self.mpr
    intro apc hapc
    cases apc with
    | shutdown => rfl
    | expired r =>
        show (!s.uses timer r) = true
        rw [h r (.inr hapc)]
        rfl
  have hlost :
      (s.service.armed ++ s.service.apcs.filterMap expired).filter (s.uses timer) = [] := by
    apply List.filter_eq_nil_iff.mpr
    intro r hr
    have hfree : s.uses timer r = false := by
      rcases List.mem_append.mp hr with hr | hr
      · exact h r (.inl hr)
      · obtain ⟨apc, hapc, hexpired⟩ := List.mem_filterMap.mp hr
        cases apc with
        | shutdown => cases hexpired
        | expired q =>
            cases hexpired
            exact h r (.inr hapc)
    rw [hfree]
    decide
  rw [State.cancel, harmed, happ, hlost, List.append_nil]

theorem lost_of_not_idle (h : ¬ s.Idle timer) :
    ∃ r ∈ (s.cancel timer).lost, r ∈ s.service.armed ∨ Apc.expired r ∈ s.service.apcs := by
  obtain ⟨r, hr⟩ := not_forall.mp h
  obtain ⟨hplace, huses⟩ := Classical.not_imp.mp hr
  refine ⟨r, List.mem_append_right _
    (List.mem_filter.mpr ⟨?_, Bool.not_eq_false _ ▸ huses⟩), hplace⟩
  rcases hplace with hr | hr
  · exact List.mem_append_left _ hr
  · exact List.mem_append_right _ (List.mem_filterMap.mpr ⟨_, hr, rfl⟩)

/-- A request is in its places, or lost. -/
theorem Books.places_add (h : Books s) (r : ℕ) :
    s.places r + weigh (single r) s.lost = s.service.pushed r := by
  have hsum : s.whole.inflight (single r) + s.service.handling (single r) + s.service.handled r =
      s.service.pushed r := h.ledger.place r
  rw [← hsum]
  simp only [State.places, State.whole, TimerService.State.inflight, TimerService.State.toArm,
    weigh_append]
  omega

theorem Books.pushed_of_lost (h : Books s) {r : ℕ} (hr : r ∈ s.lost) :
    s.service.pushed r = 1 ∧ s.places r = 0 := by
  have hsum := h.places_add r
  have hle := s.service.pushed_le r
  have hweight := le_weigh (w := single r) hr
  rw [single_self] at hweight
  omega

/-- A request that is lost is in no place. -/
theorem Books.kept_iff (h : Books s) : s.Kept ↔ s.lost = [] := by
  constructor
  · intro hkept
    apply List.eq_nil_iff_forall_not_mem.mpr
    intro r hr
    obtain ⟨hpushed, hplaces⟩ := h.pushed_of_lost hr
    rw [hkept r hpushed] at hplaces
    cases hplaces
  · intro hlost r hpushed
    have hsum := h.places_add r
    rw [hlost, hpushed] at hsum
    exact hsum

/-- A request that is in a place is not lost. -/
theorem Books.not_lost (h : Books s) {r : ℕ} (hplace : s.places r ≠ 0) : r ∉ s.lost :=
  fun hr => hplace (h.pushed_of_lost hr).2

theorem places_of_armed {r : ℕ} (hr : r ∈ s.service.armed ∨ Apc.expired r ∈ s.service.apcs) :
    s.places r ≠ 0 := by
  have hpos :
      0 < weigh (single r) s.service.armed + weigh (Apc.weight (single r)) s.service.apcs := by
    rcases hr with hr | hr
    · have hle := le_weigh (w := single r) hr
      rw [single_self] at hle
      omega
    · have hle := le_weigh (w := Apc.weight (single r)) hr
      have hone : (Apc.expired r).weight (single r) = 1 := single_self r
      omega
  unfold State.places TimerService.State.inflight
  omega

theorem places_of_arming {r : ℕ} {pc : WorkerPc} (hw : arming s.service.worker = some (r, pc)) :
    s.places r ≠ 0 := by
  have hheld := (arming_eq hw).1 (single r)
  rw [single_self] at hheld
  unfold State.places TimerService.State.inflight TimerService.State.toArm
  omega

end

/-! ## A step that keeps every request -/

/-- The service with timer objects steps as the service does. -/
structure Follows (s s' : State) (act : Act) : Prop where
  lost : s'.lost = s.lost
  service : s'.service = s.service ∨
    ∃ a, act = .service a ∧ TimerService.step s.service a = some s'.service

theorem destroyRequest_of_idle {s : State} {r : ℕ} (h : ∀ request, s.request r = some request →
    request.ownedTimer = true → (s.handles request.timerObject).isSome →
    s.Idle request.timerObject) :
    (s.destroyRequest r).lost = s.lost ∧ (s.destroyRequest r).service = s.service := by
  unfold State.destroyRequest
  split
  · exact ⟨rfl, rfl⟩
  · rename_i request hr
    dsimp only
    split
    · rename_i hown
      obtain ⟨hown, hopen⟩ := Bool.and_eq_true_iff.mp hown
      rw [State.closeHandle, cancel_of_idle (h request hr hown hopen)]
      exact ⟨rfl, rfl⟩
    · exact ⟨rfl, rfl⟩

theorem serviceStep_follows {s s' : State} {act : TimerService.Act} (hbooks : Books s)
    (hok : Apart s (.service act)) (hs : serviceStep s act = some s') :
    Follows s s' (.service act) := by
  cases act with
  | post r =>
      obtain ⟨-, hrest⟩ := Option.ite_none_left_eq_some.mp hs
      obtain ⟨t, ht, rfl⟩ := Option.map_eq_some_iff.mp hrest
      exact ⟨rfl, .inr ⟨_, rfl, ht⟩⟩
  | work =>
      simp only [serviceStep] at hs
      split at hs
      · rename_i r pc hw
        obtain ⟨-, -, x, -, hr⟩ := hbooks.alive_of_arming hw
        obtain ⟨hopen, hidle⟩ := hok r pc x.request hw hr
        rw [← Option.some.inj hs, State.setWaitableTimer, hr]
        dsimp only
        rw [if_pos hopen, cancel_of_idle hidle]
        exact ⟨rfl, .inr ⟨_, rfl, (arming_eq hw).2.2⟩⟩
      · obtain ⟨t, ht, rfl⟩ := Option.map_eq_some_iff.mp hs
        exact ⟨rfl, .inr ⟨_, rfl, ht⟩⟩
  | apc =>
      obtain ⟨t, ht, rfl⟩ := Option.map_eq_some_iff.mp hs
      exact ⟨rfl, .inr ⟨_, rfl, ht⟩⟩
  | expire r =>
      obtain ⟨-, hrest⟩ := Option.ite_none_right_eq_some.mp hs
      obtain ⟨t, ht, rfl⟩ := Option.map_eq_some_iff.mp hrest
      exact ⟨rfl, .inr ⟨_, rfl, ht⟩⟩
  | enter k spurious =>
      obtain ⟨t, ht, rfl⟩ := Option.map_eq_some_iff.mp hs
      exact ⟨rfl, .inr ⟨_, rfl, ht⟩⟩
  | react k =>
      obtain ⟨t, ht, rfl⟩ := Option.map_eq_some_iff.mp hs
      cases hk : handling s.service.reactors[k]? with
      | none => exact ⟨rfl, .inr ⟨_, rfl, ht⟩⟩
      | some r =>
          have hreactor := handling_eq_some hk
          have hwithin := reactStep_within ht
          have hidle : ∀ request, s.request r = some request → request.ownedTimer = true →
              (s.handles request.timerObject).isSome →
              State.Idle { s with service := t } request.timerObject := by
            intro request hr hown hopen q hq
            rw [hwithin.armed, hwithin.apcs] at hq
            exact hok r request hreactor hr hown hopen q hq
          obtain ⟨hlost, hservice⟩ :=
            destroyRequest_of_idle (s := { s with service := t }) hidle
          exact ⟨hlost, .inr ⟨_, rfl, ht.trans (congrArg some hservice.symm)⟩⟩
  | shutdown =>
      obtain ⟨t, ht, rfl⟩ := Option.map_eq_some_iff.mp hs
      exact ⟨rfl, .inr ⟨_, rfl, ht⟩⟩

theorem step_follows {s s' : State} {act : Act} (hbooks : Books s) (hok : Apart s act)
    (hs : step s act = some s') : Follows s s' act := by
  cases act with
  | make r timeout timer owned =>
      obtain ⟨-, heq⟩ := Option.ite_none_right_eq_some.mp hs
      rw [← Option.some.inj heq]
      exact ⟨rfl, .inl rfl⟩
  | service act => exact serviceStep_follows hbooks hok hs
  | tick steps =>
      rw [← Option.some.inj hs]
      exact ⟨rfl, .inl rfl⟩
  | create timer =>
      obtain ⟨-, heq⟩ := Option.ite_none_right_eq_some.mp hs
      rw [← Option.some.inj heq]
      exact ⟨rfl, .inl rfl⟩
  | close timer =>
      obtain ⟨-, heq⟩ := Option.ite_none_right_eq_some.mp hs
      rw [← Option.some.inj heq, State.closeHandle, cancel_of_idle hok]
      exact ⟨rfl, .inl rfl⟩

/-- A run of the service with timer objects that meets a condition is a run of the service that
meets it. -/
theorem follows_of_reachable {ok : TimerService.State → TimerService.Act → Prop} {s : State}
    (h : system.ReachableUnder
      (fun s act => Proper s act ∧ Apart s act ∧ ∀ a, act = .service a → ok s.service a) s) :
    Books s ∧ s.lost = [] ∧
      TimerService.system.ReachableUnder (fun s a => NoApcInLock s a ∧ ok s a) s.service := by
  induction h with
  | init hinit =>
      obtain ⟨nPosts, nReactors, now, rfl⟩ := hinit
      exact ⟨initial_books nPosts nReactors now, rfl, .init ⟨nPosts, nReactors, rfl⟩⟩
  | step _ hok hs ih =>
      obtain ⟨hbooks, hlost, hreach⟩ := ih
      obtain ⟨hproper, hapart, hok⟩ := hok
      have hfollows := step_follows hbooks hapart hs
      refine ⟨step_books hbooks hs, hfollows.lost.trans hlost, ?_⟩
      rcases hfollows.service with hsame | ⟨a, rfl, ha⟩
      · rw [hsame]
        exact hreach
      · exact .step hreach ⟨hproper, hok a rfl⟩ ha

/-! ## A step that loses a request -/

theorem lost_of_destroyRequest {s : State} {r : ℕ} {request : TimerRequest}
    (hr : s.request r = some request) (hown : request.ownedTimer = true)
    (hopen : (s.handles request.timerObject).isSome) (hbusy : ¬ s.Idle request.timerObject) :
    ∃ q ∈ (s.destroyRequest r).lost, q ∈ s.service.armed ∨ Apc.expired q ∈ s.service.apcs := by
  unfold State.destroyRequest
  rw [hr]
  dsimp only
  rw [if_pos (Bool.and_eq_true_iff.mpr ⟨hown, hopen⟩)]
  exact lost_of_not_idle hbusy

/-- What the step loses was in a place before it. -/
theorem lost_of_not_apart {s s' : State} {act : Act} (hnot : ¬ Apart s act)
    (hs : step s act = some s') : ∃ r ∈ s'.lost, s.places r ≠ 0 := by
  have harmed : ∀ {u : State},
      (∃ r ∈ u.lost, r ∈ s.service.armed ∨ Apc.expired r ∈ s.service.apcs) →
      ∃ r ∈ u.lost, s.places r ≠ 0 := by
    rintro u ⟨r, hr, hplace⟩
    exact ⟨r, hr, places_of_armed hplace⟩
  cases act with
  | make r timeout timer owned => exact absurd trivial hnot
  | tick steps => exact absurd trivial hnot
  | create timer => exact absurd trivial hnot
  | close timer =>
      obtain ⟨-, heq⟩ := Option.ite_none_right_eq_some.mp hs
      rw [← Option.some.inj heq]
      exact harmed (lost_of_not_idle hnot)
  | service act =>
      cases act with
      | work =>
          obtain ⟨r, hr⟩ := not_forall.mp hnot
          obtain ⟨pc, hpc⟩ := not_forall.mp hr
          obtain ⟨request, hrequest⟩ := not_forall.mp hpc
          obtain ⟨hw, hrest⟩ := Classical.not_imp.mp hrequest
          obtain ⟨hr, hbad⟩ := Classical.not_imp.mp hrest
          replace hs : serviceStep s .work = some s' := hs
          rw [serviceStep, hw] at hs
          rw [← Option.some.inj hs, State.setWaitableTimer, hr]
          dsimp only
          split
          · rename_i hopen
            -- the setting takes the place of another
            exact harmed (lost_of_not_idle fun hidle => hbad ⟨hopen, hidle⟩)
          · exact ⟨r, List.mem_append_right _ (List.mem_singleton_self r), places_of_arming hw⟩
      | react k =>
          obtain ⟨r, hr⟩ := not_forall.mp hnot
          obtain ⟨request, hrequest⟩ := not_forall.mp hr
          obtain ⟨hk, hrest⟩ := Classical.not_imp.mp hrequest
          obtain ⟨hr, hrest⟩ := Classical.not_imp.mp hrest
          obtain ⟨hown, hrest⟩ := Classical.not_imp.mp hrest
          obtain ⟨hopen, hbusy⟩ := Classical.not_imp.mp hrest
          obtain ⟨t, ht, heq⟩ := Option.map_eq_some_iff.mp hs
          have hwithin := reactStep_within ht
          rw [hk] at heq
          replace heq : State.destroyRequest { s with service := t } r = s' := heq
          rw [← heq]
          obtain ⟨q, hq, hplace⟩ := lost_of_destroyRequest (s := { s with service := t }) hr
            hown hopen fun hidle => hbusy fun q hq => hidle q (by
              show q ∈ t.armed ∨ Apc.expired q ∈ t.apcs
              rw [hwithin.armed, hwithin.apcs]
              exact hq)
          refine harmed ⟨q, hq, ?_⟩
          rw [← hwithin.armed, ← hwithin.apcs]
          exact hplace
      | post r => exact absurd trivial hnot
      | apc => exact absurd trivial hnot
      | expire r => exact absurd trivial hnot
      | enter k spurious => exact absurd trivial hnot
      | shutdown => exact absurd trivial hnot

theorem destroyRequest_lost (s : State) (r : ℕ) : s.lost ⊆ (s.destroyRequest r).lost := by
  unfold State.destroyRequest
  split
  · exact List.Subset.refl _
  · dsimp only
    split
    · exact List.subset_append_left _ _
    · exact List.Subset.refl _

/-- No step finds a lost request again. -/
theorem step_lost_subset {s s' : State} {act : Act} (hs : step s act = some s') :
    s.lost ⊆ s'.lost := by
  cases act with
  | make r timeout timer owned =>
      obtain ⟨-, heq⟩ := Option.ite_none_right_eq_some.mp hs
      rw [← Option.some.inj heq]
      exact List.Subset.refl _
  | tick steps =>
      rw [← Option.some.inj hs]
      exact List.Subset.refl _
  | create timer =>
      obtain ⟨-, heq⟩ := Option.ite_none_right_eq_some.mp hs
      rw [← Option.some.inj heq]
      exact List.Subset.refl _
  | close timer =>
      obtain ⟨-, heq⟩ := Option.ite_none_right_eq_some.mp hs
      rw [← Option.some.inj heq]
      exact List.subset_append_left _ _
  | service act =>
      cases serviceStep_case hs with
      | arm hw =>
          unfold State.setWaitableTimer
          split
          · exact List.Subset.refl _
          · dsimp only
            split
            · exact List.subset_append_left _ _
            · exact List.subset_append_left _ _
      | @handle k r t hk ht => exact destroyRequest_lost { s with service := t } r
      | _ => exact List.Subset.refl _

theorem run_lost_subset {s t : State} {acts : List Act} (hrun : system.run s acts = some t) :
    s.lost ⊆ t.lost := by
  induction acts generalizing s with
  | nil =>
      cases hrun
      exact List.Subset.refl _
  | cons act acts ih =>
      obtain ⟨u, hu, hrest⟩ := Option.bind_eq_some_iff.mp hrun
      exact List.Subset.trans (step_lost_subset hu) (ih hrest)

/-! ## The worker waits for a lost request -/

/-- Requests that are armed or lost, and those whose APC has not run. -/
def State.timers (s : State) : ℕ :=
  weigh (fun _ => 1) s.whole.armed + weigh (Apc.weight fun _ => 1) s.service.apcs

/-- A worker that has exited has left no timer, and no request is lost. -/
def Exited (s : State) : Prop := s.service.worker = .exited → s.timers = 0

/-- The word of the count does not wrap when the worker tests it. -/
def Counted (s : State) (_ : Act) : Prop :=
  s.service.worker = .loadInflight →
    weigh PostPc.pushing s.service.posts + (s.whole.inflight fun _ => 1) < 2 ^ 32

theorem cancel_timers (s : State) (timer : ℕ) : (s.cancel timer).timers = s.timers := by
  have harmed := weigh_filter (w := fun _ => 1) (l := s.service.armed) (s.uses timer)
  have hapcs := weigh_expired (fun _ => 1) (s.uses timer) s.service.apcs
  simp only [State.timers, State.whole, State.cancel, weigh_append, List.filter_append] at hapcs ⊢
  omega

theorem destroyRequest_timers (s : State) (r : ℕ) : (s.destroyRequest r).timers = s.timers ∧
    (s.destroyRequest r).service.worker = s.service.worker := by
  unfold State.destroyRequest
  split
  · exact ⟨rfl, rfl⟩
  · rename_i request _
    dsimp only
    split
    · exact ⟨cancel_timers s request.timerObject, rfl⟩
    · exact ⟨rfl, rfl⟩

theorem Exited.work {s : State} {t : TimerService.State} (hbooks : Books s)
    (hok : s.service.worker = .loadInflight →
      weigh PostPc.pushing s.service.posts + (s.whole.inflight fun _ => 1) < 2 ^ 32)
    (ht : workStep s.service = some t) : Exited { s with service := t } := by
  intro hexited
  cases workStep_case ht with
  | exit hpc hzero =>
      have hcount : BitVec.ofNat 32 (weigh PostPc.pushing s.service.posts +
          s.whole.inflight fun _ => 1) = 0#32 := hbooks.ledger.count.symm.trans hzero
      have hnone := congrArg BitVec.toNat hcount
      rw [BitVec.toNat_ofNat, Nat.mod_eq_of_lt (hok hpc)] at hnone
      have hinflight : (s.whole.inflight fun _ => 1) = 0 :=
        Nat.eq_zero_of_add_eq_zero_left hnone
      have hle : s.timers ≤ s.whole.inflight fun _ => 1 := by
        have happ : s.whole.apcs = s.service.apcs := rfl
        simp only [State.timers, TimerService.State.inflight, happ]
        omega
      exact Nat.le_zero.mp (hinflight ▸ hle)
  | _ => cases hexited

theorem arming_not_exited {pc pc' : WorkerPc} {r : ℕ} (h : arming pc = some (r, pc')) :
    pc ≠ .exited ∧ pc' ≠ .exited := by
  cases pc with
  | arm q | drainArm q =>
      cases h
      exact ⟨by rintro ⟨⟩, by rintro ⟨⟩⟩
  | _ => cases h

theorem serviceStep_exited {s s' : State} {act : TimerService.Act} (h : Exited s)
    (hbooks : Books s) (hok : Counted s (.service act)) (hs : serviceStep s act = some s') :
    Exited s' := by
  have hwithin : ∀ {t}, Within s.service t → Exited { s with service := t } := by
    intro t hwithin hexited
    have hzero := h (hwithin.worker.symm.trans hexited)
    simp only [State.timers, State.whole] at hzero ⊢
    rw [hwithin.armed, hwithin.apcs]
    exact hzero
  cases serviceStep_case hs with
  | post hmade ht =>
      cases postStep_case ht with
      | _ => exact h
  | arm hw =>
      obtain ⟨hold, hnew⟩ := arming_not_exited hw
      intro hexited
      unfold State.setWaitableTimer at hexited
      split at hexited
      · exact absurd hexited hold
      · dsimp only at hexited
        split at hexited
        · exact absurd hexited hnew
        · exact absurd hexited hnew
  | work hw ht => exact .work hbooks hok ht
  | apc ht =>
      cases apcStep_case ht with
      | expired halert happ =>
          intro hexited
          exact absurd hexited (WorkerPc.afterApc_ne_exited (State.alertable_ne_exited halert))
      | shutdown halert happ =>
          intro hexited
          cases hexited
  | expire hdue ht =>
      obtain ⟨⟨-, hworker⟩, rfl⟩ := expireStep_eq ht
      exact fun hexited => absurd hexited hworker
  | @handle k r t hk ht =>
      obtain ⟨htimers, hworker⟩ := destroyRequest_timers { s with service := t } r
      exact fun hexited =>
        htimers.trans (hwithin (reactStep_within ht) (hworker.symm.trans hexited))
  | react hk ht => exact hwithin (reactStep_within ht)
  | enter ht => exact hwithin (enterStep_within ht)
  | shutdown ht =>
      cases shutdownStep_case ht with
      | queueApc hpc =>
          intro hexited
          have hzero := h hexited
          simp only [State.timers, State.whole, weigh_append] at hzero ⊢
          exact hzero
      | _ => exact h

theorem step_exited {s s' : State} {act : Act} (h : Exited s) (hbooks : Books s)
    (hok : Counted s act) (hs : step s act = some s') : Exited s' := by
  cases act with
  | make r timeout timer owned =>
      obtain ⟨-, heq⟩ := Option.ite_none_right_eq_some.mp hs
      rw [← Option.some.inj heq]
      exact h
  | service act => exact serviceStep_exited h hbooks hok hs
  | tick steps =>
      rw [← Option.some.inj hs]
      exact h
  | create timer =>
      obtain ⟨-, heq⟩ := Option.ite_none_right_eq_some.mp hs
      rw [← Option.some.inj heq]
      exact h
  | close timer =>
      obtain ⟨-, heq⟩ := Option.ite_none_right_eq_some.mp hs
      rw [← Option.some.inj heq]
      exact fun hexited => (cancel_timers s timer).trans (h hexited)

theorem exited_of_reachable {s : State}
    (h : system.ReachableUnder (fun s act => Proper s act ∧ Counted s act) s) :
    Books s ∧ Exited s := by
  apply h.invariant (I := fun s => Books s ∧ Exited s)
  · rintro _ ⟨nPosts, nReactors, now, rfl⟩
    exact ⟨initial_books nPosts nReactors now, fun hexited => by cases hexited⟩
  · exact fun _ _ _ hi hok hs => ⟨step_books hi.1 hs, step_exited hi.2 hi.1 hok.2 hs⟩

/-- The worker cannot exit when a request is lost. -/
theorem Exited.not_exited {s : State} (h : Exited s) {r : ℕ} (hr : r ∈ s.lost) :
    s.service.worker ≠ .exited := by
  intro hexited
  have hle := le_weigh (w := fun _ => 1) (List.mem_append_left s.service.armed hr)
  have hzero := h hexited
  have hwhole : s.whole.armed = s.lost ++ s.service.armed := rfl
  rw [State.timers, hwhole] at hzero
  omega

/-! ## The contract of a timer object -/

/-- **Requests may share a timer object one after the other.** In runs where no conversion of a
timeout overflows, no timer's APC runs in a wait for the mutex of the queue, and a timer object is
set or closed only while no request waits for it, every request that was pushed is in one place
until it is handled, and the run is one of the service alone. A step against that loses a request
at once. A lost request is in no place and is never handled; and the worker, for which `shutdown`
waits, does not exit as long as the count of the requests does not wrap. -/
theorem kept_iff_apart :
    (∀ (ok : TimerService.State → TimerService.Act → Prop) s, system.ReachableUnder
        (fun s act => Proper s act ∧ Apart s act ∧ ∀ a, act = .service a → ok s.service a) s →
      s.Kept ∧
        TimerService.system.ReachableUnder (fun s a => NoApcInLock s a ∧ ok s a) s.service) ∧
    (∀ s act t, system.ReachableUnder Proper s → Proper s act → step s act = some t →
      ¬ Apart s act → ∃ r ∈ t.lost, r ∉ s.lost) ∧
    (∀ s r, system.ReachableUnder Proper s → r ∈ s.lost → s.service.pushed r = 1 ∧
      ∀ acts t, system.Meets Proper s acts → system.run s acts = some t →
        t.places r = 0 ∧ t.service.handled r = 0) ∧
    (∀ s, system.ReachableUnder (fun s act => Proper s act ∧ Counted s act) s → s.lost ≠ [] →
      s.service.worker ≠ .exited) := by
  refine ⟨fun ok s h => ?_, fun s act t h _ hs hnot => ?_, fun s r h hr => ⟨?_, ?_⟩,
    fun s h hlost => ?_⟩
  · obtain ⟨hbooks, hlost, hservice⟩ := follows_of_reachable h
    exact ⟨hbooks.kept_iff.mpr hlost, hservice⟩
  · obtain ⟨r, hr, hplace⟩ := lost_of_not_apart hnot hs
    exact ⟨r, hr, (reachable_books h).not_lost hplace⟩
  · exact ((reachable_books h).pushed_of_lost hr).1
  · intro acts t hmeets hrun
    have ht := (reachable_books (h.run hmeets hrun)).pushed_of_lost (run_lost_subset hrun hr)
    refine ⟨ht.2, ?_⟩
    have hplaces := ht.2
    unfold State.places at hplaces
    omega
  · obtain ⟨-, hexited⟩ := exited_of_reachable h
    obtain ⟨r, hr⟩ := List.exists_mem_of_ne_nil _ hlost
    exact hexited.not_exited hr

/-- Two requests with one timer object: the worker sets it for the second while the first one
waits. -/
def sharedTimer : List Act :=
  [.create 7, .service (.post 0), .service (.post 0), .make 0 shortTimeout 7 false,
    .service (.post 0), .service (.post 1), .service (.post 1), .make 1 shortTimeout 7 false,
    .service (.post 1), .service .work, .service .work, .service .work, .service .work]

theorem kept_iff_apart_shared_timer :
    ∃ s, system.run (initial 2 0 0) sharedTimer = some s ∧ s.lost = [0] ∧
      s.service.armed = [1] ∧ s.service.pushed 0 = 1 ∧ s.places 0 = 0 ∧
      s.service.worker ≠ .exited := by
  have hfits : shortTimeout.Fits := ⟨by decide, by decide⟩
  have h0 : system.ReachableUnder (fun s act => Proper s act ∧ Counted s act) (initial 2 0 0) :=
    .init ⟨2, 0, 0, rfl⟩
  have hm : system.Meets (fun s act => Proper s act ∧ Counted s act) (initial 2 0 0) sharedTimer :=
    ⟨⟨trivial, nofun⟩, _, rfl, ⟨trivial, nofun⟩, _, rfl, ⟨trivial, nofun⟩, _, rfl,
      ⟨hfits, nofun⟩, _, rfl, ⟨trivial, nofun⟩, _, rfl, ⟨trivial, nofun⟩, _, rfl,
      ⟨trivial, nofun⟩, _, rfl, ⟨hfits, nofun⟩, _, rfl, ⟨trivial, nofun⟩, _, rfl,
      ⟨trivial, nofun⟩, _, rfl, ⟨trivial, nofun⟩, _, rfl, ⟨trivial, nofun⟩, _, rfl,
      ⟨trivial, nofun⟩, _, rfl, trivial⟩
  have hs := h0.run hm rfl
  obtain ⟨-, -, hlost, hworker⟩ := kept_iff_apart
  obtain ⟨hpushed, hnever⟩ := hlost _ 0 (hs.mono fun _ _ hok => hok.1) (by decide)
  exact ⟨_, rfl, rfl, rfl, hpushed, (hnever [] _ trivial rfl).1, hworker _ hs (by decide)⟩

end Coroutines.TimerService.Requests
