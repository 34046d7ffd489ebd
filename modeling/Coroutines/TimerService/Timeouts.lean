import Coroutines.TimerService.Requests

/-!
# When requests are handled

The system's clock runs on. A timer is due when the timeout of its request is over, counted from
the moment the worker sets it, which is after the request was made. What every run keeps: no
handler is called before that or twice, and a request and its own timer object last until then.
-/

namespace Coroutines.TimerService.Requests

open Transition Tally Function

/-! ## No handler is called too early -/

/-- The timeout of the request is over at the time. -/
def Record.Over (x : Record) (t : ℤ) : Prop := x.time + max 0 x.timeout.ticks ≤ t

/-- The timer of the request has not expired. -/
def State.Waiting (s : State) (r : ℕ) : Prop :=
  s.service.pushed r = 0 ∨ r ∈ s.service.requests ∨
    (∃ pc, arming s.service.worker = some (r, pc)) ∨ r ∈ s.service.armed ∨ r ∈ s.lost

/-- A request waits until its timeout is over, and its timer is not due before. -/
structure Timed (s : State) : Prop where
  made : ∀ r x, s.made r = some x → x.timeout.Fits ∧ x.time ≤ s.now
  due : ∀ r ∈ s.service.armed, ∀ x, s.made r = some x → ∀ t, s.now ≤ t → s.due r ≤ t → x.Over t
  elapsed : ∀ r x, s.made r = some x → s.Waiting r ∨ x.Over s.now

theorem initial_timed (nPosts nReactors : ℕ) (now : ℤ) : Timed (initial nPosts nReactors now) where
  made _ _ hx := by cases hx
  due _ hr := (List.not_mem_nil hr).elim
  elapsed _ _ hx := by cases hx

theorem Record.Over.mono {x : Record} {t u : ℤ} (h : x.Over t) (htu : t ≤ u) : x.Over u :=
  le_trans h htu

section
variable {s u : State} {r : ℕ}

theorem State.Waiting.aside (hposts : u.service.posts = s.service.posts)
    (hrequests : u.service.requests = s.service.requests)
    (hworker : u.service.worker = s.service.worker)
    (harmed : ∀ q ∈ s.service.armed, q ∈ u.service.armed ∨ q ∈ u.lost)
    (hlost : ∀ q ∈ s.lost, q ∈ u.lost) (h : s.Waiting r) : u.Waiting r := by
  have hpushed : u.service.pushed r = s.service.pushed r := State.pushed_congr (by rw [hposts])
  unfold State.Waiting
  rw [hpushed, hrequests, hworker]
  rcases h with hpost | hrequest | hheld | hr | hr
  · exact .inl hpost
  · exact .inr (.inl hrequest)
  · exact .inr (.inr (.inl hheld))
  · exact .inr (.inr (.inr (harmed r hr)))
  · exact .inr (.inr (.inr (.inr (hlost r hr))))

theorem Timed.keep (h : Timed s) (hmade : u.made = s.made) (hnow : u.now = s.now)
    (hdue : u.due = s.due) (harmed : ∀ q ∈ u.service.armed, q ∈ s.service.armed)
    (hwait : ∀ q, s.Waiting q → u.Waiting q ∨ ∀ x, s.made q = some x → x.Over s.now) :
    Timed u where
  made q x hx := by
    rw [hmade] at hx
    rw [hnow]
    exact h.made q x hx
  due q hq x hx := by
    rw [hmade] at hx
    rw [hnow, hdue]
    exact h.due q (harmed q hq) x hx
  elapsed q x hx := by
    rw [hmade] at hx
    rw [hnow]
    rcases h.elapsed q x hx with hw | hover
    · rcases hwait q hw with hw' | hover
      · exact .inl hw'
      · exact .inr (hover x hx)
    · exact .inr hover

/-- The posts, the queue and the worker stand still, and an armed request is armed or lost. -/
theorem Timed.aside (h : Timed s) (hmade : u.made = s.made) (hnow : u.now = s.now)
    (hdue : u.due = s.due) (hposts : u.service.posts = s.service.posts)
    (hrequests : u.service.requests = s.service.requests)
    (hworker : u.service.worker = s.service.worker)
    (harmed : ∀ q ∈ u.service.armed, q ∈ s.service.armed)
    (hback : ∀ q ∈ s.service.armed, q ∈ u.service.armed ∨ q ∈ u.lost)
    (hlost : ∀ q ∈ s.lost, q ∈ u.lost) : Timed u :=
  h.keep hmade hnow hdue harmed fun _ hw =>
    .inl (hw.aside hposts hrequests hworker hback hlost)

theorem mem_cancel_armed {timer : ℕ} (hr : r ∈ (s.cancel timer).service.armed) :
    r ∈ s.service.armed := (List.mem_filter.mp hr).1

theorem mem_cancel_lost {timer : ℕ} (hr : r ∈ s.lost) : r ∈ (s.cancel timer).lost :=
  List.mem_append_left _ hr

theorem armed_or_lost (timer : ℕ) (hr : r ∈ s.service.armed) :
    r ∈ (s.cancel timer).service.armed ∨ r ∈ (s.cancel timer).lost := by
  cases huses : s.uses timer r with
  | true =>
      right
      exact List.mem_append_right _ (List.mem_filter.mpr ⟨List.mem_append_left _ hr, huses⟩)
  | false =>
      left
      refine List.mem_filter.mpr ⟨hr, ?_⟩
      rw [huses]
      rfl

theorem Timed.cancel (h : Timed s) (timer : ℕ) : Timed (s.cancel timer) :=
  h.aside rfl rfl rfl rfl rfl rfl (fun _ => mem_cancel_armed) (fun _ => armed_or_lost timer)
    fun _ => mem_cancel_lost

end

theorem Timed.setWaitableTimer {s : State} (h : Timed s) (hbooks : Books s) {r : ℕ} {pc : WorkerPc}
    (hw : arming s.service.worker = some (r, pc)) : Timed (s.setWaitableTimer r pc) := by
  obtain ⟨-, -, x, hx, hr⟩ := hbooks.alive_of_arming hw
  obtain ⟨hfits, htime⟩ := h.made r x hx
  -- a request that waited is the one that is armed, or waits still
  have hwait : ∀ (u : State), u.service.posts = s.service.posts →
      u.service.requests = s.service.requests →
      (∀ q ∈ s.service.armed, q ∈ u.service.armed ∨ q ∈ u.lost) → (∀ q ∈ s.lost, q ∈ u.lost) →
      (r ∈ u.service.armed ∨ r ∈ u.lost) → ∀ q, s.Waiting q → u.Waiting q := by
    intro u hposts hrequests harmed hlost hself q hq
    have hpushed : u.service.pushed q = s.service.pushed q := State.pushed_congr (by rw [hposts])
    unfold State.Waiting
    rw [hpushed, hrequests]
    rcases hq with hpost | hrequest | ⟨pc', hheld⟩ | hq | hq
    · exact .inl hpost
    · exact .inr (.inl hrequest)
    · rw [hw] at hheld
      cases hheld
      exact .inr (.inr (.inr hself))
    · exact .inr (.inr (.inr (harmed q hq)))
    · exact .inr (.inr (.inr (.inr (hlost q hq))))
  unfold State.setWaitableTimer
  rw [hr]
  dsimp only
  split
  · have hcancel := h.cancel x.timerObject
    refine ⟨h.made, fun q hq y hy t ht hdue => ?_, fun q y hy => ?_⟩
    · by_cases hqr : q = r
      · subst hqr
        obtain rfl : x = y := Option.some.inj (hx.symm.trans hy)
        have hdue : update s.due q (x.request.timeout.due s.now) q ≤ t := hdue
        rw [update_self] at hdue
        exact (Int.add_le_add_right htime _).trans (le_of_due_le hfits ht hdue)
      · have hdue : update s.due r (x.request.timeout.due s.now) q ≤ t := hdue
        rw [update_of_ne hqr] at hdue
        refine hcancel.due q ?_ y hy t ht hdue
        rcases List.mem_append.mp hq with hq | hq
        · exact hq
        · exact absurd (List.mem_singleton.mp hq) hqr
    · refine (h.elapsed q y hy).imp_left fun hq => ?_
      refine hwait _ ?_ ?_ (fun p hp => ?_) (fun p hp => ?_) ?_ q hq
      · rfl
      · rfl
      · exact (armed_or_lost x.timerObject hp).imp_left (List.mem_append_left _)
      · exact mem_cancel_lost hp
      · exact .inl (List.mem_append_right _ (List.mem_singleton_self r))
  · refine ⟨h.made, h.due, fun q y hy => ?_⟩
    refine (h.elapsed q y hy).imp_left fun hq => ?_
    refine hwait _ ?_ ?_ (fun p hp => ?_) (fun p hp => ?_) ?_ q hq
    · rfl
    · rfl
    · exact .inl hp
    · exact List.mem_append_left _ hp
    · exact .inr (List.mem_append_right _ (List.mem_singleton_self r))

theorem Timed.post {s : State} (h : Timed s) {r : ℕ} {t : TimerService.State}
    (ht : postStep s.service r = some t) : Timed { s with service := t } := by
  have hkeep : ∀ {t : TimerService.State}, (∀ q, t.pushed q = s.service.pushed q) →
      t.requests = s.service.requests → t.worker = s.service.worker →
      t.armed = s.service.armed → Timed { s with service := t } := by
    intro t hpushed hrequests hworker harmed
    refine h.keep rfl rfl rfl (fun _ hq => harmed ▸ hq) fun q hq => .inl ?_
    unfold State.Waiting
    rw [hpushed, hrequests, hworker, harmed]
    exact hq
  cases postStep_case ht with
  | test hr =>
      refine hkeep (pushed_goPost_of_eq hr ?_) rfl rfl rfl
      split <;> rfl
  | addInflight hr =>
      exact hkeep (pushed_goPost_of_eq (s := { s.service with
        nInflightTimers := s.service.nInflightTimers + 1 }) hr rfl) rfl rfl rfl
  | push hr =>
      -- the request is in the queue now
      refine h.keep rfl rfl rfl (fun _ hq => hq) fun q hq => .inl ?_
      rcases hq with hpost | hrequest | hrest
      · by_cases hqr : q = r
        · exact .inr (.inl (List.mem_append_right _ (List.mem_singleton.mpr hqr)))
        · refine .inl (Eq.trans ?_ hpost)
          exact State.pushed_congr (List.getElem?_set_ne (Ne.symm hqr))
      · exact .inr (.inl (List.mem_append_left _ hrequest))
      · exact .inr (.inr hrest)
  | setEvent hr =>
      exact hkeep (pushed_goPost_of_eq (s := { s.service with nonEmpty := true }) hr rfl) rfl rfl
        rfl

theorem Timed.work {s : State} (h : Timed s) {t : TimerService.State}
    (hw : arming s.service.worker = none) (ht : workStep s.service = some t) :
    Timed { s with service := t } := by
  have hnot : ∀ {r pc}, arming s.service.worker ≠ some (r, pc) := by
    intro r pc hheld
    rw [hw] at hheld
    cases hheld
  have hpop : ∀ {r : ℕ} {rest : List ℕ} {pc pc' : WorkerPc}, s.service.requests = r :: rest →
      arming pc' = some (r, pc) →
      Timed { s with service := { s.service with requests := rest, worker := pc' } } := by
    intro r rest pc pc' hrequests hpc
    refine h.keep rfl rfl rfl (fun _ hq => hq) fun q hq => .inl ?_
    rcases hq with hpost | hrequest | ⟨pc', hheld⟩ | hrest
    · exact .inl hpost
    · rw [hrequests] at hrequest
      rcases List.mem_cons.mp hrequest with rfl | hrequest
      · exact .inr (.inr (.inl ⟨pc, hpc⟩))
      · exact .inr (.inl hrequest)
    · exact absurd hheld hnot
    · exact .inr (.inr (.inr hrest))
  have hgo : ∀ pc : WorkerPc, Timed { s with service := { s.service with worker := pc } } := by
    intro pc
    refine h.keep rfl rfl rfl (fun _ hq => hq) fun q hq => .inl ?_
    rcases hq with hpost | hrequest | ⟨pc', hheld⟩ | hrest
    · exact .inl hpost
    · exact .inr (.inl hrequest)
    · exact absurd hheld hnot
    · exact .inr (.inr (.inr hrest))
  cases workStep_case ht with
  | pop hpc hrequests => exact hpop hrequests rfl
  | drain hpc hrequests => exact hpop hrequests rfl
  | arm hpc | drainArm hpc =>
      rw [hpc] at hw
      cases hw
  | empty hpc | woken hpc | drained hpc | sleep hpc | exit hpc => exact hgo _

theorem Timed.apc {s : State} (h : Timed s) {t : TimerService.State} {fault : Bool}
    (ht : apcStep s.service = some t) : Timed { s with service := t, fault := fault } := by
  have hgo : ∀ u : State, u.made = s.made → u.now = s.now → u.due = s.due →
      u.service.posts = s.service.posts → u.service.requests = s.service.requests →
      u.service.armed = s.service.armed → u.lost = s.lost →
      s.service.alertable = true → Timed u := by
    intro u hmade hnow hdue hposts hrequests harmed hlost halert
    refine h.keep hmade hnow hdue (fun q hq => harmed ▸ hq) fun q hq => .inl ?_
    have hpushed : u.service.pushed q = s.service.pushed q := State.pushed_congr (by rw [hposts])
    unfold State.Waiting
    rw [hpushed, hrequests, harmed, hlost]
    rcases hq with hpost | hrequest | ⟨pc, hheld⟩ | hrest
    · exact .inl hpost
    · exact .inr (.inl hrequest)
    · -- a worker that is arming is not alertable
      have hone := (arming_eq hheld).1 (single q)
      rw [State.arming_of_alertable halert, single_self] at hone
      cases hone
    · exact .inr (.inr (.inr hrest))
  cases apcStep_case ht with
  | expired halert happ => exact hgo _ rfl rfl rfl rfl rfl rfl rfl halert
  | shutdown halert happ => exact hgo _ rfl rfl rfl rfl rfl rfl rfl halert

theorem Timed.expire {s : State} (h : Timed s) {r : ℕ} {t : TimerService.State}
    (hdue : s.due r ≤ s.now) (ht : expireStep s.service r = some t) :
    Timed { s with service := t } := by
  obtain ⟨⟨hmem, -⟩, rfl⟩ := expireStep_eq ht
  refine h.keep rfl rfl rfl (fun q hq => List.mem_of_mem_erase hq) fun q hq => ?_
  by_cases hqr : q = r
  · subst hqr
    exact .inr fun x hx => h.due q hmem x hx s.now le_rfl hdue
  · refine .inl ?_
    rcases hq with hpost | hrequest | hheld | hq | hq
    · exact .inl hpost
    · exact .inr (.inl hrequest)
    · exact .inr (.inr (.inl hheld))
    · exact .inr (.inr (.inr (.inl ((List.mem_erase_of_ne hqr).mpr hq))))
    · exact .inr (.inr (.inr (.inr hq)))

theorem Timed.destroyRequest {s : State} (h : Timed s) (r : ℕ) : Timed (s.destroyRequest r) := by
  unfold State.destroyRequest
  split
  · exact ⟨h.made, h.due, h.elapsed⟩
  · rename_i request _
    dsimp only
    split
    · have hcancel := h.cancel request.timerObject
      exact ⟨hcancel.made, hcancel.due, hcancel.elapsed⟩
    · exact ⟨h.made, h.due, h.elapsed⟩

theorem Timed.within {s : State} (h : Timed s) {t : TimerService.State}
    (hwithin : Within s.service t) : Timed { s with service := t } :=
  h.aside rfl rfl rfl hwithin.posts hwithin.requests hwithin.worker
    (fun _ hq => hwithin.armed ▸ hq) (fun _ hq => .inl (hwithin.armed ▸ hq)) fun _ hq => hq

theorem serviceStep_timed {s s' : State} {act : TimerService.Act} (h : Timed s) (hbooks : Books s)
    (hs : serviceStep s act = some s') : Timed s' := by
  cases serviceStep_case hs with
  | post hmade ht => exact h.post ht
  | arm hw => exact h.setWaitableTimer hbooks hw
  | work hw ht => exact h.work hw ht
  | apc ht => exact h.apc ht
  | expire hdue ht => exact h.expire hdue ht
  | @handle k r t hk ht => exact (h.within (reactStep_within ht)).destroyRequest r
  | react hk ht => exact h.within (reactStep_within ht)
  | enter ht => exact h.within (enterStep_within ht)
  | shutdown ht =>
      have haside := shutdownStep_aside ht
      have harmed : ∀ {t}, shutdownStep s.service = some t → t.armed = s.service.armed := by
        intro t ht
        cases shutdownStep_case ht with
        | _ => rfl
      exact h.aside rfl rfl rfl haside.posts haside.requests haside.worker
        (fun _ hq => harmed ht ▸ hq) (fun _ hq => .inl (harmed ht ▸ hq)) fun _ hq => hq

theorem Timed.make {s : State} (h : Timed s) {r : ℕ} {x : Record}
    (hpost : s.service.posts[r]? = some .push) (hfits : x.timeout.Fits) (htime : x.time = s.now)
    (hnot : ∀ q, r = q → q ∉ s.service.armed) : Timed (s.make r x) where
  made q y hy := by
    rcases made_make.mp hy with ⟨-, rfl⟩ | ⟨-, hy⟩
    · exact ⟨hfits, htime.le⟩
    · exact h.made q y hy
  due q hq y hy := by
    rcases made_make.mp hy with ⟨hqr, -⟩ | ⟨-, hy⟩
    · exact absurd hq (hnot q hqr.symm)
    · exact h.due q hq y hy
  elapsed q y hy := by
    rcases made_make.mp hy with ⟨rfl, -⟩ | ⟨-, hy⟩
    · left
      left
      exact State.pushed_eq hpost
    · exact h.elapsed q y hy

theorem step_timed {s s' : State} {act : Act} (h : Timed s) (hbooks : Books s)
    (hok : Proper s act) (hs : step s act = some s') : Timed s' := by
  cases act with
  | make r timeout timer owned =>
      obtain ⟨⟨hpost, hfresh, -⟩, heq⟩ := Option.ite_none_right_eq_some.mp hs
      rw [← Option.some.inj heq]
      refine h.make hpost hok rfl fun q hqr hq => ?_
      -- what is armed was made before
      obtain ⟨-, -, x, hx, -⟩ := hbooks.alive_of_armed (.inr hq)
      rw [← hqr, Option.isNone_iff_eq_none.mp hfresh] at hx
      cases hx
  | service act => exact serviceStep_timed h hbooks hs
  | tick steps =>
      rw [← Option.some.inj hs]
      have hle : s.now ≤ s.now + steps := Int.le_add_of_nonneg_right (Int.natCast_nonneg steps)
      refine ⟨fun q x hx => ?_, fun q hq x hx t ht => ?_, fun q x hx => ?_⟩
      · exact ⟨(h.made q x hx).1, (h.made q x hx).2.trans hle⟩
      · exact h.due q hq x hx t (hle.trans ht)
      · exact (h.elapsed q x hx).imp_right fun hover => hover.mono hle
  | create timer =>
      obtain ⟨-, heq⟩ := Option.ite_none_right_eq_some.mp hs
      rw [← Option.some.inj heq]
      exact ⟨h.made, h.due, h.elapsed⟩
  | close timer =>
      obtain ⟨-, heq⟩ := Option.ite_none_right_eq_some.mp hs
      rw [← Option.some.inj heq]
      have hcancel := h.cancel timer
      exact ⟨hcancel.made, hcancel.due, hcancel.elapsed⟩

/-! ## Every request, in every run -/

theorem reachable_books {ok : State → Act → Prop} {s : State} (h : system.ReachableUnder ok s) :
    Books s := by
  apply h.invariant
  · rintro _ ⟨nPosts, nReactors, now, rfl⟩
    exact initial_books nPosts nReactors now
  · exact fun _ _ _ hi _ hs => step_books hi hs

theorem reachable_timed {s : State} (h : system.ReachableUnder Proper s) : Books s ∧ Timed s := by
  apply h.invariant (I := fun s => Books s ∧ Timed s)
  · rintro _ ⟨nPosts, nReactors, now, rfl⟩
    exact ⟨initial_books nPosts nReactors now, initial_timed nPosts nReactors now⟩
  · exact fun _ _ _ hi hok hs => ⟨step_books hi.1 hs, step_timed hi.2 hi.1 hok hs⟩

/-- A request that waits has not been handled. -/
theorem Books.not_handled_of_waiting {s : State} (h : Books s) {r : ℕ} (hw : s.Waiting r) :
    s.service.handled r = 0 := by
  have hsum := h.ledger.place r
  have hsame : s.whole.handled r = s.service.handled r := rfl
  rcases hw with hpost | hrequest | ⟨pc, hheld⟩ | hr | hr
  · have hzero : s.whole.pushed r = 0 := hpost
    omega
  · have hplace : 0 < s.whole.inflight (single r) := by
      have hqueue := le_weigh (w := single r) hrequest
      have hreq : s.whole.requests = s.service.requests := rfl
      rw [single_self] at hqueue
      simp only [TimerService.State.inflight, TimerService.State.toArm, hreq]
      omega
    exact (h.alive_of_place (Nat.add_pos_left hplace _)).1
  · exact (h.alive_of_arming hheld).1
  · exact (h.alive_of_armed (.inr hr)).1
  · exact (h.alive_of_armed (.inl hr)).1

theorem Books.handled_le_one {s : State} (h : Books s) (r : ℕ) : s.service.handled r ≤ 1 := by
  have hsum := h.ledger.place r
  have hle := s.whole.pushed_le r
  have hsame : s.whole.handled r = s.service.handled r := rfl
  omega

/-- No handler is called twice, and none before the timeout of its request is over. A request is
deleted when its handler is called, and not used after that. A timer object of its own is
closed then, once. -/
structure State.Orderly (s : State) : Prop where
  once : ∀ r, s.service.handled r ≤ 1
  notEarly : ∀ r x, s.made r = some x → s.service.handled r = 1 → x.Over s.now
  deleted : ∀ r x, s.made r = some x → (s.request r = none ↔ s.service.handled r = 1)
  valid : s.fault = false
  closed : ∀ r x, s.made r = some x → s.closes r = if x.owns then s.service.handled r else 0
  kept : ∀ r x, s.made r = some x → x.owns = true →
    (s.handles x.timerObject = some (.request r) ↔ s.service.handled r = 0)

/-- **What every run keeps**, in which no conversion of a timeout overflows and no timer's APC
runs in a wait for the mutex of the queue. -/
theorem orderly_of_reachable (s : State) (h : system.ReachableUnder Proper s) : s.Orderly := by
  obtain ⟨hbooks, htimed⟩ := reachable_timed h
  refine ⟨hbooks.handled_le_one, fun r x hx hone => ?_, fun r x hx => ?_, hbooks.fault,
    fun r x hx => ?_, fun r x hx ho => ?_⟩
  · rcases htimed.elapsed r x hx with hwait | hover
    · exact absurd ((hbooks.not_handled_of_waiting hwait).symm.trans hone) zero_ne_one
    · exact hover
  · rw [hbooks.alive r, hx]
    by_cases hzero : s.service.handled r = 0
    · rw [if_pos hzero, hzero]
      exact iff_of_false (Option.some_ne_none _) zero_ne_one
    · rw [if_neg hzero]
      have hle := hbooks.handled_le_one r
      exact iff_of_true rfl (by omega)
  · rw [hbooks.closes r, hx, Option.any_some]
  · rw [hbooks.owner]
    constructor
    · rintro ⟨-, -, -, -, hzero⟩
      exact hzero
    · exact fun hzero => ⟨x, hx, ho, rfl, hzero⟩

/-- One request with a timer object of its own, up to the call of its handler. -/
def oneRequest : List Act :=
  [.service (.post 0), .service (.post 0), .make 0 shortTimeout 7 true, .service (.post 0),
    .service .work, .service .work, .service .work, .tick 15000000, .service (.expire 0),
    .service .apc, .service (.enter 0 false), .service (.enter 0 true), .service (.react 0),
    .service (.react 0), .service (.react 0)]

theorem orderly_of_reachable_one_request :
    ∃ s, system.ReachableUnder Proper s ∧ s.service.handled 0 = 1 ∧
      s.closes 0 = 1 ∧ s.now = 15000000 ∧ s.Orderly := by
  have h0 : system.ReachableUnder Proper (initial 1 1 0) := .init ⟨1, 1, 0, rfl⟩
  have hfits : shortTimeout.Fits := ⟨by decide, by decide⟩
  have hm : system.Meets Proper (initial 1 1 0) oneRequest :=
    ⟨trivial, _, rfl, trivial, _, rfl, hfits, _, rfl, trivial, _, rfl, trivial, _, rfl, trivial,
      _, rfl, trivial, _, rfl, trivial, _, rfl, trivial, _, rfl, fun _ _ _ => ⟨nofun, nofun⟩, _,
      rfl, trivial, _, rfl, trivial, _, rfl, trivial, _, rfl, trivial, _, rfl, trivial, _, rfl,
      trivial⟩
  have hs := h0.run hm rfl
  exact ⟨_, hs, rfl, rfl, rfl, orderly_of_reachable _ hs⟩

end Coroutines.TimerService.Requests
