import Coroutines.Task.Basic

/-!
# The hand-off through the flag of the promise

The awaiting coroutine stores itself and exchanges the flag, the body exchanges the
flag at its final suspend, and whoever comes second lets the awaiting coroutine go on.
The invariant is about one task at a time, whatever its resumers do.
-/

namespace Coroutines.Task

open Transition Function

variable {V E : Type} {P : PromiseType V E}

/-! ## What the updates leave alone -/

@[simp] theorem State.set_frame (s : State P) (i : ℕ) (f : Frame P) :
    (s.set i f).frame = update s.frame i f := rfl

theorem State.set_set (s : State P) (i : ℕ) (f g : Frame P) :
    (s.set i f).set i g = s.set i g := by
  simp [State.set]

@[simp] theorem State.giveBack_frame (s : State P) (c : Caller) :
    (s.giveBack c).frame = s.frame := by
  unfold State.giveBack
  split <;> rfl

@[simp] theorem State.giveBack_fault (s : State P) (c : Caller) :
    (s.giveBack c).fault = s.fault := by
  unfold State.giveBack
  split <;> rfl

@[simp] theorem State.hand_frame (s : State P) (h : Handle) (deferred : Bool) :
    (s.hand h deferred).frame = s.frame := by
  unfold State.hand
  split <;> rfl

@[simp] theorem State.hand_fault (s : State P) (h : Handle) (deferred : Bool) :
    (s.hand h deferred).fault = s.fault := by
  unfold State.hand
  split <;> rfl

@[simp] theorem Frame.giveBack_body (f : Frame P) (c : Caller) :
    (f.giveBack c).body = f.body := by
  unfold Frame.giveBack
  split <;> rfl

@[simp] theorem Frame.giveBack_passes (f : Frame P) (c : Caller) :
    (f.giveBack c).passes = f.passes := by
  unfold Frame.giveBack
  split <;> rfl

/-! ## The invariant of one task -/

/-- The body is past its final suspend. -/
def Body.over : Body → Bool
  | .finished _ => true
  | _ => false

/-- The body is about to resume its continuation. -/
def Body.resuming : Body → Bool
  | .resume .. => true
  | _ => false

theorem Body.not_over {b : Body} (h : b.done = false) : b.over = false ∧ b.resuming = false := by
  cases b with
  | exchange k c => cases h
  | resume k c => cases h
  | finished k => cases h
  | _ => exact ⟨rfl, rfl⟩

/-- A route that task `i` may take to its awaiting coroutine. -/
def Route.Of (i : ℕ) : Route → Prop
  | .finalSuspendOf j => j = i
  | .ready | .notSuspended => True

/-- The flag is up exactly when somebody has exchanged it, and until the body is over
and the awaiting coroutine has gone on there is one permission to go on between them. -/
structure Frame.Handoff (i : ℕ) (f : Frame P) : Prop where
  pending : f.completed = none → f.result = P.empty ∧ f.body.done = false
  filled : ∀ c, f.completed = some c → f.result = P.complete P.empty c ∧ f.body.done = true
  called : f.awaiter = .inResume ↔ f.body.caller = some .awaiter
  stored : f.awaiter = .exchange ∨ f.awaiter = .suspended → f.continuation = some i
  flag : f.awaiter ≠ .suspended → f.body.resuming = false ∧ f.state = f.body.over
  suspended : f.awaiter = .suspended → f.state = true ∧ f.body.over = false
  waiting : f.awaiter ≠ .continued → f.routes = []
  continued : f.awaiter = .continued → f.awaitReady = true ∧ ∃ r, f.routes = [r] ∧ r.Of i

theorem handoff_initial (i : ℕ) (kind : Kind) : (Frame.initial P kind).Handoff i := by
  constructor
  case pending => cases kind <;> exact fun _ => ⟨rfl, rfl⟩
  case called => cases kind <;> simp [Frame.initial, Body.caller]
  case flag => cases kind <;> exact fun _ => ⟨rfl, rfl⟩
  case waiting => exact fun _ => rfl
  all_goals simp [Frame.initial]

theorem Frame.awaitReady_of_done {f : Frame P} (h : f.body.done = true) :
    f.awaitReady = true := by
  simp [Frame.awaitReady, h]

/-- A body that may be resumed, or is running, has not completed. -/
theorem Frame.Handoff.not_completed {i : ℕ} {f : Frame P} (h : f.Handoff i)
    (hd : f.body.done = false) : f.completed = none := by
  cases hc : f.completed with
  | none => rfl
  | some c =>
      have := (h.filled c hc).2
      rw [hd] at this
      cases this

/-- Nor has it let its awaiting coroutine go on. -/
theorem Frame.Handoff.not_continued {i : ℕ} {f : Frame P} (h : f.Handoff i)
    (hr : f.awaitReady = false) : f.awaiter ≠ .continued := by
  intro hc
  have := (h.continued hc).1
  rw [hr] at this
  cases this

/-! ## Steps of the body -/

/-- A body that is neither at its final suspend nor past it moves, for a caller other
than the awaiting coroutine. -/
theorem Frame.Handoff.goBody {i : ℕ} {f : Frame P} (h : f.Handoff i) {b : Body}
    (passes : List (ℕ × Option ℕ)) (hd : f.body.done = false) (ha : f.body ≠ .absent)
    (hb : b.done = false) (hc : b.caller = some .awaiter ↔ f.body.caller = some .awaiter) :
    Frame.Handoff i { f with body := b, passes := passes } := by
  have hready : f.awaitReady = false := by simp [Frame.awaitReady, hd, ha]
  have hcont := h.not_continued hready
  have hover := (Body.not_over hd).1
  have hover' := Body.not_over hb
  have hflag : f.awaiter ≠ .suspended → f.state = b.over := by
    intro hs
    rw [hover'.1, ← hover]
    exact (h.flag hs).2
  exact {
    pending := fun hn => ⟨(h.pending hn).1, hb⟩
    filled := fun c hs => nomatch (h.not_completed hd).symm.trans hs
    called := h.called.trans hc.symm
    stored := h.stored
    flag := fun hs => ⟨hover'.2, hflag hs⟩
    suspended := fun hs => ⟨(h.suspended hs).1, hover'.1⟩
    waiting := h.waiting
    continued := fun hs => absurd hs hcont }

/-- Whoever else resumes the body, the awaiting coroutine is not concerned. -/
theorem Frame.Handoff.resume {i : ℕ} {f f' : Frame P} (h : f.Handoff i) {c : Caller}
    {point : Option ℕ} (hc : c ≠ .awaiter) (hf : f.resume i c point = .ok f') :
    f'.Handoff i := by
  unfold Frame.resume at hf
  split at hf
  case h_2 hb =>
    cases hf
    exact h.goBody f.passes (by simp [hb, Body.done]) (by simp [hb]) rfl
      (by simp [hb, Body.caller, hc])
  case h_3 k hb =>
    cases hf
    exact h.goBody _ (by simp [hb, Body.done]) (by simp [hb]) rfl
      (by simp [hb, Body.caller, hc])
  all_goals cases hf

/-- The body gives control back to the call it was running in. -/
theorem Frame.Handoff.giveBack {i : ℕ} {f : Frame P} (h : f.Handoff i) {b : Body}
    (state : Bool) {c : Caller} (hc : f.body.caller = some c) (hb : b.caller = none)
    (hdone : b.done = f.body.done) (hres : b.resuming = false)
    (hflag : f.awaiter ≠ .suspended → state = b.over)
    (hsusp : f.awaiter = .suspended → state = true ∧ b.over = false) :
    Frame.Handoff i (Frame.giveBack { f with body := b, state := state } c) := by
  have hnone : b.caller ≠ some .awaiter := by simp [hb]
  have hready : f.awaitReady = true → b.done = true := by
    intro hr
    rw [hdone]
    have ha : f.body ≠ .absent := by
      intro ha
      rw [ha] at hc
      cases hc
    simpa [Frame.awaitReady, ha] using hr
  by_cases hca : c = .awaiter
  · -- its `resume` returns, and registration comes next
    subst hca
    have hin : f.awaiter = .inResume := h.called.mpr hc
    have hns : f.awaiter ≠ .suspended := by simp [hin]
    simp only [Frame.giveBack, if_pos]
    exact {
      pending := fun hn => ⟨(h.pending hn).1, hdone.trans (h.pending hn).2⟩
      filled := fun c hs => ⟨(h.filled c hs).1, hdone.trans (h.filled c hs).2⟩
      called := ⟨nofun, fun hs => absurd hs hnone⟩
      stored := nofun
      flag := fun _ => ⟨hres, hflag hns⟩
      suspended := nofun
      waiting := fun _ => h.waiting (by simp [hin])
      continued := nofun }
  · have hnin : f.awaiter ≠ .inResume := by
      intro hin
      have := h.called.mp hin
      rw [hc] at this
      exact hca (Option.some.inj this)
    simp only [Frame.giveBack, if_neg hca]
    exact {
      pending := fun hn => ⟨(h.pending hn).1, hdone.trans (h.pending hn).2⟩
      filled := fun c hs => ⟨(h.filled c hs).1, hdone.trans (h.filled c hs).2⟩
      called := ⟨fun hs => absurd hs hnin, fun hs => absurd hs hnone⟩
      stored := h.stored
      flag := fun hs => ⟨hres, hflag hs⟩
      suspended := hsusp
      waiting := h.waiting
      continued := fun hs =>
        ⟨Frame.awaitReady_of_done (hready (h.continued hs).1), (h.continued hs).2⟩ }

theorem Frame.Handoff.suspend {i k : ℕ} {f : Frame P} {c : Caller} (h : f.Handoff i)
    (hb : f.body = .running k c) :
    Frame.Handoff i ({ f with body := .suspended k }.giveBack c) := by
  apply h.giveBack f.state (by rw [hb]; rfl) rfl (by rw [hb]; rfl) rfl
  · intro hs
    have hflag := (h.flag hs).2
    rw [hb] at hflag
    exact hflag
  · intro hs
    exact ⟨(h.suspended hs).1, rfl⟩

theorem Frame.Handoff.complete {i k : ℕ} {f : Frame P} {caller : Caller} (h : f.Handoff i)
    (hb : f.body = .running k caller) (c : Except E V) :
    Frame.Handoff i { f with
      body := .exchange k caller
      result := P.complete f.result c
      completed := some c } := by
  have hd : f.body.done = false := by rw [hb]; rfl
  have hres := (h.pending (h.not_completed hd)).1
  have hcalled := h.called
  have hflag := h.flag
  rw [hb] at hcalled hflag
  rw [hres]
  exact {
    pending := nofun
    filled := fun c' hs => ⟨by rw [Option.some.inj hs], rfl⟩
    called := hcalled
    stored := h.stored
    flag := fun hs => ⟨rfl, (hflag hs).2⟩
    suspended := fun hs => ⟨(h.suspended hs).1, rfl⟩
    waiting := h.waiting
    continued := fun hs => ⟨Frame.awaitReady_of_done rfl, (h.continued hs).2⟩ }

/-- The body is second at the flag: its awaiting coroutine is suspended. -/
theorem Frame.Handoff.suspended_of_flag {i : ℕ} {f : Frame P} (h : f.Handoff i)
    (hstate : f.state = true) (hover : f.body.over = false) : f.awaiter = .suspended := by
  by_contra hs
  have := (h.flag hs).2
  rw [hstate, hover] at this
  cases this

theorem Frame.Handoff.suspended_of_resuming {i : ℕ} {f : Frame P} (h : f.Handoff i)
    (hb : f.body.resuming = true) : f.awaiter = .suspended := by
  by_contra hs
  have := (h.flag hs).1
  rw [hb] at this
  cases this

theorem Frame.Handoff.foundContinuation {i k : ℕ} {f : Frame P} {c : Caller}
    (h : f.Handoff i) (hb : f.body = .exchange k c) (hstate : f.state = true) :
    Frame.Handoff i { f with body := .resume k c } := by
  have hs := h.suspended_of_flag hstate (by rw [hb]; rfl)
  have hpending := h.pending
  have hcalled := h.called
  rw [hb] at hpending hcalled
  exact {
    pending := fun hn => nomatch (hpending hn).2
    filled := fun c hc => ⟨(h.filled c hc).1, rfl⟩
    called := hcalled
    stored := h.stored
    flag := fun hns => absurd hs hns
    suspended := fun _ => ⟨hstate, rfl⟩
    waiting := h.waiting
    continued := fun hc => nomatch hs.symm.trans hc }

theorem Frame.Handoff.finish {i k : ℕ} {f : Frame P} {c : Caller} (h : f.Handoff i)
    (hb : f.body = .exchange k c) (hstate : f.state = false) :
    Frame.Handoff i ({ f with state := true, body := .finished k }.giveBack c) := by
  apply h.giveBack true (by rw [hb]; rfl) rfl (by rw [hb]; rfl) rfl
  · intro _
    rfl
  · intro hs
    exact nomatch hstate.symm.trans (h.suspended hs).1

/-- The final suspend resumes the awaiting coroutine, which was suspended. -/
theorem Frame.Handoff.resumeContinuation {i k : ℕ} {f : Frame P} {c : Caller}
    (h : f.Handoff i) (hb : f.body = .resume k c) :
    Frame.Handoff i ({ f with
      awaiter := .continued
      routes := f.routes ++ [Route.finalSuspendOf i]
      body := .finished k }.giveBack c) := by
  have hs := h.suspended_of_resuming (by rw [hb]; rfl)
  have hca : c ≠ .awaiter := by
    rintro rfl
    have := h.called.mpr (by rw [hb]; rfl)
    rw [hs] at this
    cases this
  have hpending := h.pending
  rw [hb] at hpending
  rw [h.waiting (by simp [hs])]
  simp only [Frame.giveBack, if_neg hca]
  exact {
    pending := fun hn => nomatch (hpending hn).2
    filled := fun c hc => ⟨(h.filled c hc).1, rfl⟩
    called := ⟨nofun, nofun⟩
    stored := nofun
    flag := fun _ => ⟨rfl, (h.suspended hs).1⟩
    suspended := nofun
    waiting := fun hx => absurd rfl hx
    continued := fun _ => ⟨Frame.awaitReady_of_done rfl, _, rfl, rfl⟩ }

/-! ## Steps of the awaiting coroutine -/

/-- The awaiting coroutine moves on without calling anything. -/
theorem Frame.Handoff.goAwaiter {i : ℕ} {f : Frame P} (h : f.Handoff i) {pc : AwaiterPc}
    (continuation : Option ℕ) (hs : f.awaiter ≠ .suspended) (hin : f.awaiter ≠ .inResume)
    (hc : f.awaiter ≠ .continued) (hs' : pc ≠ .suspended) (hin' : pc ≠ .inResume)
    (hc' : pc ≠ .continued) (hstored : pc = .exchange → continuation = some i) :
    Frame.Handoff i { f with continuation := continuation, awaiter := pc } where
  pending := h.pending
  filled := h.filled
  called := ⟨fun hx => absurd hx hin', fun hx => absurd (h.called.mpr hx) hin⟩
  stored hx := hstored (hx.resolve_right hs')
  flag _ := h.flag hs
  suspended hx := absurd hx hs'
  waiting _ := h.waiting hc
  continued hx := absurd hx hc'

/-- The awaiting coroutine goes on without having been suspended. -/
theorem Frame.Handoff.continue {i : ℕ} {f : Frame P} (h : f.Handoff i) {r : Route}
    (hs : f.awaiter ≠ .suspended) (hin : f.awaiter ≠ .inResume)
    (hc : f.awaiter ≠ .continued) (hready : f.awaitReady = true) (hr : r.Of i) :
    Frame.Handoff i { f with awaiter := .continued, routes := f.routes ++ [r] } where
  pending := h.pending
  filled := h.filled
  called := ⟨nofun, fun hx => absurd (h.called.mpr hx) hin⟩
  stored := nofun
  flag _ := h.flag hs
  suspended := nofun
  waiting hx := absurd rfl hx
  continued _ := ⟨hready, r, by rw [h.waiting hc]; rfl, hr⟩

/-- The body goes on in the call of the awaiting coroutine. -/
theorem Frame.Handoff.enter {i : ℕ} {f : Frame P} (h : f.Handoff i)
    (hpc : f.awaiter = .resume) (hd : f.body.done = false) (k : ℕ)
    (passes : List (ℕ × Option ℕ)) :
    Frame.Handoff i { f with
      awaiter := .inResume
      body := .running k .awaiter
      passes := passes } := by
  have hnone := h.not_completed hd
  have hflag := (h.flag (by simp [hpc])).2
  rw [(Body.not_over hd).1] at hflag
  exact {
    pending := fun _ => ⟨(h.pending hnone).1, rfl⟩
    filled := fun c hx => nomatch hnone.symm.trans hx
    called := ⟨fun _ => rfl, fun _ => rfl⟩
    stored := nofun
    flag := fun _ => ⟨rfl, hflag⟩
    suspended := nofun
    waiting := fun _ => h.waiting (by simp [hpc])
    continued := nofun }

/-- The `co_await` starts the body, or takes it past a suspension point. -/
theorem Frame.Handoff.call {i : ℕ} {f f' : Frame P} (h : f.Handoff i)
    (hpc : f.awaiter = .resume)
    (hf : Frame.resume { f with awaiter := .inResume } i .awaiter none = .ok f') :
    f'.Handoff i := by
  unfold Frame.resume at hf
  split at hf
  case h_2 hb =>
    replace hb : f.body = .initial := hb
    cases hf
    exact h.enter hpc (by rw [hb]; rfl) 0 f.passes
  case h_3 k hb =>
    replace hb : f.body = .suspended k := hb
    cases hf
    exact h.enter hpc (by rw [hb]; rfl) (k + 1) _
  all_goals cases hf

/-- The awaiting coroutine is first at the flag. -/
theorem Frame.Handoff.register {i : ℕ} {f : Frame P} (h : f.Handoff i)
    (hpc : f.awaiter = .exchange) (hstate : f.state = false) :
    Frame.Handoff i { f with state := true, awaiter := .suspended } := by
  have hflag := (h.flag (by simp [hpc])).2
  have hin : f.awaiter ≠ .inResume := by simp [hpc]
  exact {
    pending := h.pending
    filled := h.filled
    called := ⟨nofun, fun hx => absurd (h.called.mpr hx) hin⟩
    stored := fun _ => h.stored (.inl hpc)
    flag := fun hx => absurd rfl hx
    suspended := fun _ => ⟨rfl, hflag.symm.trans hstate⟩
    waiting := fun _ => h.waiting (by simp [hpc])
    continued := nofun }

/-! ## Every run -/

theorem handoff_set {s : State P} (h : ∀ j, (s.frame j).Handoff j) {i : ℕ} {f : Frame P}
    (hf : f.Handoff i) : ∀ j, ((s.set i f).frame j).Handoff j :=
  (forall_update_iff s.frame fun j f => f.Handoff j).mpr ⟨hf, fun j _ => h j⟩

theorem handoff_resume {s : State P} (h : ∀ j, (s.frame j).Handoff j) {i : ℕ} {f : Frame P}
    {c : Caller} {point : Option ℕ} (hf : ∀ f', f.resume i c point = .ok f' → f'.Handoff i)
    (j : ℕ) : ((s.resume i f c point).frame j).Handoff j := by
  unfold State.resume
  split
  · rename_i f' hok
    exact handoff_set h (hf f' hok) j
  · exact h j

theorem finalSuspendStep_handoff {s s' : State P} {i : ℕ} (h : ∀ j, (s.frame j).Handoff j)
    (hs : finalSuspendStep s i = some s') (j : ℕ) : (s'.frame j).Handoff j := by
  unfold finalSuspendStep at hs
  split at hs
  · rename_i k c hb
    split at hs
    · rename_i hstate
      cases hs
      exact handoff_set h ((h i).foundContinuation hb hstate) j
    · rename_i hstate
      cases hs
      rw [State.giveBack_frame]
      exact handoff_set h ((h i).finish hb (by simpa using hstate)) j
  · rename_i k c hb
    have hcont := (h i).stored (.inr ((h i).suspended_of_resuming (by rw [hb]; rfl)))
    rw [hcont] at hs
    cases hs
    -- the continuation is the coroutine that awaits this very task
    have hf := (h i).resumeContinuation hb
    have hself : ((s.set i { s.frame i with
        awaiter := .continued
        routes := (s.frame i).routes ++ [.finalSuspendOf i] }).frame i) = { s.frame i with
        awaiter := .continued
        routes := (s.frame i).routes ++ [.finalSuspendOf i] } := update_self ..
    rw [State.giveBack_frame, hself, State.set_set]
    exact handoff_set h hf j
  · cases hs

theorem awaitStep_handoff {s s' : State P} {i : ℕ} (h : ∀ j, (s.frame j).Handoff j)
    (hs : awaitStep s i = some s') (j : ℕ) : (s'.frame j).Handoff j := by
  simp only [awaitStep] at hs
  split at hs
  · rename_i hpc
    split at hs
    · cases hs
    · split at hs
      · rename_i hready
        cases hs
        exact handoff_set h ((h i).continue (r := .ready) (by simp [hpc]) (by simp [hpc])
          (by simp [hpc]) hready trivial) j
      · cases hs
        exact handoff_set h ((h i).goAwaiter (s.frame i).continuation (by simp [hpc])
          (by simp [hpc]) (by simp [hpc]) (by simp) (by simp) (by simp) (by simp)) j
  · rename_i hpc
    cases hs
    exact handoff_resume h (fun f' hf' => (h i).call hpc hf') j
  · rename_i hpc
    cases hs
    exact handoff_set h ((h i).goAwaiter (some i) (by simp [hpc]) (by simp [hpc])
      (by simp [hpc]) (by simp) (by simp) (by simp) fun _ => rfl) j
  · rename_i hpc
    split at hs
    · rename_i hstate
      cases hs
      -- the body was first at the flag, and is over
      have hover := ((h i).flag (by simp [hpc])).2
      have hready : (s.frame i).awaitReady = true := by
        rw [hstate] at hover
        cases hb : (s.frame i).body with
        | finished k => simp [Frame.awaitReady, hb, Body.done]
        | _ =>
            rw [hb] at hover
            cases hover
      exact handoff_set h ((h i).continue (r := .notSuspended) (by simp [hpc]) (by simp [hpc])
        (by simp [hpc]) hready trivial) j
    · rename_i hstate
      cases hs
      exact handoff_set h ((h i).register hpc (by simpa using hstate)) j
  · cases hs

theorem step_handoff {s s' : State P} {act : Act V E} (h : ∀ j, (s.frame j).Handoff j)
    (hs : step s act = some s') (j : ℕ) : (s'.frame j).Handoff j := by
  unfold step at hs
  split at hs
  · cases hs
  cases act with
  | start i =>
      simp only [startStep] at hs
      split at hs
      · cases hs
        exact handoff_resume h (fun f' hf' => (h i).resume (by simp) hf') j
      · cases hs
  | suspend i deferred =>
      simp only [suspendStep] at hs
      split at hs
      · rename_i k c hb
        cases hs
        rw [State.giveBack_frame, State.hand_frame]
        exact handoff_set h ((h i).suspend hb) j
      · cases hs
  | complete i c =>
      simp only [completeStep] at hs
      split at hs
      · rename_i k caller hb
        cases hs
        exact handoff_set h ((h i).complete hb c) j
      · cases hs
  | finalSuspend i => exact finalSuspendStep_handoff h hs j
  | await i => exact awaitStep_handoff h hs j
  | runFront =>
      simp only [runFrontStep] at hs
      split at hs
      · cases hs
        exact handoff_resume (s := { s with run := .inResume }) h
          (fun f' hf' => (h _).resume (c := .scheduler) (by simp) hf') j
      · cases hs
  | runPop =>
      simp only [runPopStep] at hs
      split at hs
      · cases hs
        exact h j
      · cases hs
  | resumer n =>
      simp only [resumerStep] at hs
      split at hs
      · cases hs
        exact handoff_resume (s := { s with held := s.held.eraseIdx n }) h
          (fun f' hf' => (h _).resume (c := .resumer) (by simp) hf') j
      · cases hs

/-- The hand-off goes on in every run, whoever resumes the body where. -/
theorem reachable_handoff {kind : ℕ → Kind} {s : State P} (h : (system P kind).Reachable s)
    (i : ℕ) : (s.frame i).Handoff i :=
  h.invariant (I := fun s => ∀ j, (s.frame j).Handoff j)
    (by rintro _ rfl; exact fun j => handoff_initial j (kind j))
    (fun _ _ _ hi _ hs => step_handoff hi hs) i

end Coroutines.Task
