import Coroutines.AsyncLatch.Suspension

/-!
# How often the latch resumes an awaiter

One call reads the list of awaiters: the one that took the count to zero; and a `count_down(0)`
on an expired latch, which exchanges zero for zero and takes itself for that call. Where such a
call finds an awaiter, on the list or on its way there, that awaiter can be resumed twice.
-/

namespace Coroutines.AsyncLatch

open Transition Links Function

/-! ## The second reading -/

/-- An awaiter is resumed by the call that releases the latch, and again by a
`count_down(0)`. -/
def countDownZero : List Act :=
  [.coAwait 7, .await 7 false, .await 7 false, .await 7 false, .await 7 false,
    .callCountDown 0 1, .countDown 0 false, .countDown 0 false, .countDown 0 false,
    .countDown 0 false, .countDown 0 false,
    .callCountDown 0 0, .countDown 0 false, .countDown 0 false, .countDown 0 false,
    .countDown 0 false]

theorem resumed_twice_after_count_down_zero :
    ¬ ∀ s, system.Reachable s → s.ResumedOnce := by
  intro h
  have hr : system.Reachable (initial 1) := .init ⟨1, by decide, rfl⟩
  exact absurd (h _ (hr.run countDownZero rfl) 7) (by decide)

/-! ## Who reads the list -/

/-- There is an awaiter on the list, or one that has passed the test of the count and will be. -/
def State.Listed (s : State) : Prop := s.awaiters ≠ none ∨ ∃ a, s.awaiting a = .exchange none

/-- Zero is exchanged for zero: a `count_down(0)` on an expired latch. -/
def ReleasesAgain (s : State) : Act → Prop
  | .countDown d spurious => s.expired ∧ spurious = false ∧ s.counting d = .exchange 0 0
  | _ => False

/-- A `count_down(0)` on an expired latch finds nobody to resume, now or later. -/
def ReleasedOnce (s : State) (act : Act) : Prop := ReleasesAgain s act → ¬ s.Listed

/-- If there is anything on the list, only one call is about to read it, and nobody has. -/
structure Released (s : State) : Prop where
  early : s.Early
  reader : s.Listed → ∀ d, s.counting d = .loadAwaiters →
    s.Unread ∧ ∀ e, s.counting e = .loadAwaiters → e = d

theorem initial_released (count : ℕ) : Released (initial count) where
  early := initial_early count
  reader _ _ hd := by simp [initial] at hd

/-- Once the count is zero, an await only leads to the list who has passed the test. -/
theorem Released.await {s s' : State} (h : Released s) (hearly : s'.Early)
    (hcounting : s'.counting = s.counting) (hres : s'.resumptions = s.resumptions)
    (hlisted : s'.Listed → s.Listed ∨ ¬ s.expired) : Released s' := by
  refine ⟨hearly, fun hl d hd => ?_⟩
  rw [State.Unread, hres, hcounting]
  rw [hcounting] at hd
  rcases hlisted hl with hl | hexp
  · exact h.reader hl d hd
  · exact absurd hd ((h.early hexp).2 d)

/-- An await moves that does not get past its test. -/
theorem Released.goAwait {s : State} (h : Released s) {a : ℕ} {pc : AwaitPc} {q : ℕ → Option ℕ}
    (hearly : ({ s with nextAwaiter := q }.goAwait a pc).Early)
    (hpc : pc = .exchange none → ¬ s.expired) :
    Released ({ s with nextAwaiter := q }.goAwait a pc) := by
  apply h.await hearly rfl rfl
  rintro (hhead | ⟨b, hb⟩)
  · exact Or.inl (Or.inl hhead)
  · have hb : update s.awaiting a pc b = .exchange none := hb
    by_cases hba : b = a
    · rw [hba, update_self] at hb
      exact Or.inr (hpc hb)
    · rw [update_of_ne hba] at hb
      exact Or.inl (Or.inr ⟨b, hb⟩)

theorem Released.push {s : State} (h : Released s) {a : ℕ} (hearly : (s.push a).Early)
    (ha : s.awaiting a = .exchange s.awaiters) : Released (s.push a) := by
  refine h.await hearly rfl rfl fun _ => Or.inl ?_
  by_cases hhead : s.awaiters = none
  · rw [hhead] at ha
    exact Or.inr ⟨a, ha⟩
  · exact Or.inl hhead

/-- A call moves on that neither reads the list nor is about to. -/
theorem Released.goDown {s : State} (h : Released s) {d count : ℕ} {pc : DownPc}
    (hearly : ({ s with count := count }.goDown d pc).Early) (hload : pc ≠ .loadAwaiters)
    (hsome : ∀ a, pc ≠ .resuming (some a)) :
    Released ({ s with count := count }.goDown d pc) := by
  have hback : ∀ e x, x ≠ pc → update s.counting d pc e = x → s.counting e = x := by
    intro e x hx he
    by_cases hed : e = d
    · rw [hed, update_self] at he
      exact absurd he.symm hx
    · rwa [update_of_ne hed] at he
  refine ⟨hearly, fun hl e he => ?_⟩
  obtain ⟨⟨hzero, hnone⟩, hone⟩ := h.reader hl e (hback e _ hload.symm he)
  exact ⟨⟨hzero, fun f a hf => hnone f a (hback f _ (hsome a).symm hf)⟩,
    fun f hf => hone f (hback f _ hload.symm hf)⟩

/-- **The call that takes the count to zero** is the first that is about to read the list. -/
theorem Released.release {s : State} (h : Released s) {d : ℕ}
    (hfirst : s.expired → ¬ s.Listed) :
    Released ({ s with count := 0 }.goDown d .loadAwaiters) := by
  refine ⟨fun hexp => absurd rfl hexp, fun hl e he => ?_⟩
  have hexp : ¬ s.expired := fun hexp => hfirst hexp hl
  obtain ⟨⟨hzero, hnone⟩, hload⟩ := h.early hexp
  have honly : ∀ f, update s.counting d .loadAwaiters f = .loadAwaiters → f = d := by
    intro f hf
    by_contra hfd
    rw [update_of_ne hfd] at hf
    exact hload f hf
  refine ⟨⟨hzero, fun f a hf => ?_⟩, fun f hf => (honly f hf).trans (honly e he).symm⟩
  have hf : update s.counting d .loadAwaiters f = .resuming (some a) := hf
  by_cases hfd : f = d
  · rw [hfd, update_self] at hf
    cases hf
  · rw [update_of_ne hfd] at hf
    exact hnone f a hf

/-- **The reader** reads the list: nobody else is about to. -/
theorem Released.read {s : State} (h : Released s) {d : ℕ} (hd : s.counting d = .loadAwaiters) :
    Released (s.goDown d (.resuming s.awaiters)) := by
  refine ⟨fun hexp => absurd hd ((h.early hexp).2 d), fun hl e he => ?_⟩
  have he : update s.counting d (.resuming s.awaiters) e = .loadAwaiters := he
  by_cases hed : e = d
  · rw [hed, update_self] at he
    cases he
  · rw [update_of_ne hed] at he
    exact absurd ((h.reader hl d hd).2 e he) hed

theorem Released.resume {s : State} (h : Released s) {d a : ℕ}
    (hd : s.counting d = .resuming (some a)) :
    Released ((s.goDown d (.resuming (s.nextAwaiter a))).resume a) := by
  have hread : ¬ s.Unread := fun hs => hs.2 d a hd
  refine ⟨fun hexp => absurd (h.early hexp).1 hread, fun hl e he => ?_⟩
  have he : update s.counting d (.resuming (s.nextAwaiter a)) e = .loadAwaiters := he
  have hed : e ≠ d := by
    rintro rfl
    rw [update_self] at he
    cases he
  rw [update_of_ne hed] at he
  refine absurd (h.reader ?_ e he).1 hread
  rcases hl with hhead | ⟨b, hb⟩
  · exact Or.inl hhead
  · refine Or.inr ⟨b, ?_⟩
    have hb : (if s.awaiting a = .suspended then update s.awaiting a .idle else s.awaiting) b =
      .exchange none := hb
    split at hb
    · by_cases hba : b = a
      · rw [hba, update_self] at hb
        cases hb
      · rwa [update_of_ne hba] at hb
    · exact hb

theorem awaitStep_released {s s' : State} {a : ℕ} {spurious : Bool} (h : Released s)
    (hs : awaitStep s a spurious = some s') : Released s' := by
  have hearly := awaitStep_early h.early hs
  unfold awaitStep at hs
  split at hs
  · cases hs
  · cases hs
    exact h.goAwait hearly (by split <;> rintro ⟨⟩)
  · cases hs
    exact h.goAwait hearly (by rintro ⟨⟩)
  · split at hs
    · cases hs
      exact h.goAwait hearly (by rintro ⟨⟩)
    · rename_i hexp
      cases hs
      exact h.goAwait hearly fun _ => hexp
  · rename_i oldHead hpc
    split at hs
    · rename_i hcas
      obtain ⟨rfl, -⟩ := hcas
      cases hs
      exact h.push hearly hpc
    · cases hs
      exact h.goAwait hearly (by rintro ⟨⟩)
  · cases hs

theorem countDownStep_released {s s' : State} {d : ℕ} {spurious : Bool} (h : Released s)
    (hok : ReleasedOnce s (.countDown d spurious))
    (hs : countDownStep s d spurious = some s') : Released s' := by
  have hearly := countDownStep_early h.early hs
  unfold countDownStep at hs
  split at hs
  · cases hs
  · cases hs
    exact h.goDown hearly (by simp) (by simp)
  · rename_i n oldCount hpc
    split at hs
    · cases hs
      exact h.goDown hearly (by simp) (by simp)
    · split at hs
      · rename_i hle hcas
        obtain ⟨hcount, hspurious⟩ := hcas
        cases hs
        by_cases hzero : oldCount - n = 0
        · rw [hzero, if_pos rfl]
          refine h.release fun hexp => hok ⟨hexp, hspurious, ?_⟩
          -- the count was zero before, and `n` is not above it
          have hold : oldCount = 0 := hcount.symm.trans hexp
          have hn : n = 0 := by omega
          rw [hpc, hold, hn]
        · rw [if_neg hzero] at hearly ⊢
          exact h.goDown hearly (by simp) (by simp)
      · cases hs
        exact h.goDown hearly (by simp) (by simp)
  · rename_i hpc
    cases hs
    exact h.read hpc
  · cases hs
    exact h.goDown hearly (by simp) (by simp)
  · rename_i a hpc
    cases hs
    exact h.resume hpc

theorem step_released {s s' : State} {act : Act} (h : Released s) (hok : ReleasedOnce s act)
    (hs : step s act = some s') : Released s' := by
  have hearly := step_early h.early hs
  cases act with
  | coAwait a =>
      obtain ⟨-, heq⟩ := Option.ite_none_right_eq_some.mp hs
      obtain rfl := Option.some.inj heq
      have hgo : Released ({ s with nextAwaiter := update s.nextAwaiter a none }.goAwait a
          .awaitReady) := h.goAwait hearly (by rintro ⟨⟩)
      exact hgo
  | await a spurious => exact awaitStep_released h hs
  | callCountDown d n =>
      obtain ⟨-, heq⟩ := Option.ite_none_right_eq_some.mp hs
      obtain rfl := Option.some.inj heq
      exact h.goDown hearly (by simp) (by simp)
  | countDown d spurious => exact countDownStep_released h hok hs

/-- **A call that reads an awaiter is the first to do so.** -/
theorem Released.firstRead {s : State} (h : Released s) (act : Act) : FirstRead s act := by
  cases act with
  | countDown d spurious =>
      intro hd
      by_cases hhead : s.awaiters = none
      · exact Or.inl hhead
      · exact Or.inr (h.reader (Or.inl hhead) d hd).1
  | coAwait a => trivial
  | await a spurious => trivial
  | callCountDown d n => trivial

theorem reachable_released {s : State} (h : system.ReachableUnder ReleasedOnce s) :
    Released s ∧ Once s := by
  refine h.invariant (I := fun s => Released s ∧ Once s) ?_ ?_
  · rintro _ ⟨count, -, rfl⟩
    exact ⟨initial_released count, initial_once count⟩
  · rintro s act s' ⟨hrel, honce⟩ hok hs
    exact ⟨step_released hrel hok hs, step_once honce (hrel.firstRead act) hs⟩

/-! ## A second reading is a second resumption -/

/-- A call that is about to read the list resumes the awaiter at its head. -/
theorem read_resumes {s : State} {d a : ℕ} (hd : s.counting d = .loadAwaiters)
    (hhead : s.awaiters = some a) :
    ∃ t, system.run s [.countDown d false, .countDown d false] = some t ∧ t.count = s.count ∧
      t.awaiters = s.awaiters ∧ t.suspensions = s.suspensions ∧
      t.resumptions a = s.resumptions a + 1 ∧ ∀ e, e ≠ d → t.counting e = s.counting e := by
  let s' := s.goDown d (.resuming s.awaiters)
  have hread : system.step s (.countDown d false) = some s' := by
    show countDownStep s d false = _
    rw [countDownStep, hd]
  have hd' : s'.counting d = .resuming (some a) := by
    show update s.counting d (.resuming s.awaiters) d = _
    rw [update_self, hhead]
  have hresume : system.step s' (.countDown d false) =
      some ((s'.goDown d (.resuming (s'.nextAwaiter a))).resume a) := by
    show countDownStep s' d false = _
    rw [countDownStep, hd']
  refine ⟨(s'.goDown d (.resuming (s'.nextAwaiter a))).resume a, ?_, rfl, rfl, rfl,
    update_self _ _ _, fun e he => ?_⟩
  · rw [System.run_cons _ hread, System.run_cons _ hresume]
    rfl
  · exact (update_of_ne he _ _).trans (update_of_ne he _ _)

/-- A `count_down(0)` that is called on an expired latch comes to read the list. -/
theorem call_reads {s : State} {e : ℕ} (hexp : s.expired) (he : s.counting e = .idle) :
    ∃ t, system.run s [.callCountDown e 0, .countDown e false, .countDown e false] = some t ∧
      t.counting e = .loadAwaiters ∧ t.awaiters = s.awaiters ∧ t.suspensions = s.suspensions ∧
      t.resumptions = s.resumptions := by
  let s₁ := s.goDown e (.loadCount 0)
  let s₂ := s₁.goDown e (.exchange 0 0)
  have hcall : system.step s (.callCountDown e 0) = some s₁ := if_pos he
  have hload : system.step s₁ (.countDown e false) = some s₂ := by
    have hpc : s₁.counting e = .loadCount 0 := update_self _ _ _
    show countDownStep s₁ e false = _
    rw [countDownStep, hpc, show s₁.count = 0 from hexp]
  have hexchange : system.step s₂ (.countDown e false) =
      some ({ s₂ with count := 0 }.goDown e .loadAwaiters) := by
    have hpc : s₂.counting e = .exchange 0 0 := update_self _ _ _
    have hcount : s₂.count = 0 := hexp
    show countDownStep s₂ e false = _
    rw [countDownStep, hpc]
    simp only [Nat.lt_irrefl, if_false, hcount, true_and, if_true, Nat.sub_self]
  refine ⟨{ s₂ with count := 0 }.goDown e .loadAwaiters, ?_, update_self _ _ _, rfl, rfl, rfl⟩
  rw [System.run_cons _ hcall, System.run_cons _ hload, System.run_cons _ hexchange]
  rfl

/-- **Two calls read the same awaiter**: one that is about to, and a `count_down(0)`. -/
theorem read_twice {s : State} {d a : ℕ} (hexp : s.expired) (hd : s.counting d = .loadAwaiters)
    (hhead : s.awaiters = some a) (hone : s.suspensions a ≤ 1)
    (hfinite : {d | s.counting d ≠ .idle}.Finite) :
    ∃ acts u, system.run s acts = some u ∧ ¬ u.ResumedOnce := by
  obtain ⟨e, he⟩ := (hfinite.insert d).infinite_compl.nonempty
  obtain ⟨hed, hidle⟩ := not_or.mp he
  obtain ⟨t, ht, hcount, hhead₁, hsus₁, hres₁, hothers⟩ := read_resumes hd hhead
  have hidle₁ : t.counting e = .idle := (hothers e hed).trans (not_not.mp hidle)
  obtain ⟨u, hu, hload, hhead₂, hsus₂, hres₂⟩ := call_reads (hcount.trans hexp) hidle₁
  obtain ⟨v, hv, -, -, hsus₃, hres₃, -⟩ :=
    read_resumes hload (hhead₂.trans (hhead₁.trans hhead))
  refine ⟨_, v, (System.run_append _ ht).trans ((System.run_append _ hu).trans hv), fun hall => ?_⟩
  have htwice := hall a
  rw [hres₃, hres₂, hres₁, hsus₃, hsus₂, hsus₁] at htwice
  omega

/-- **A `count_down(0)` that finds an awaiter** can be followed by a second resumption. -/
theorem zero_exchange_breaks : system.Breaks ReleasedOnce State.ResumedOnce := by
  intro s act t hreach hs hnot
  obtain ⟨hagain, hlisted⟩ := Classical.not_imp.mp hnot
  cases act with
  | coAwait a => exact hagain.elim
  | await a spurious => exact hagain.elim
  | callCountDown d n => exact hagain.elim
  | countDown d spurious =>
      obtain ⟨hexp, rfl, hpc⟩ := hagain
      have hcount : s.count = 0 := hexp
      obtain rfl : t = { s with count := 0 }.goDown d .loadAwaiters := by
        have hs : countDownStep s d false = some t := hs
        rw [countDownStep, hpc] at hs
        simp only [Nat.lt_irrefl, if_false, hcount, true_and, if_true, Nat.sub_self,
          Option.some.injEq] at hs
        exact hs.symm
      set t := { s with count := 0 }.goDown d .loadAwaiters with ht
      have hload : t.counting d = .loadAwaiters := update_self _ _ _
      obtain ⟨-, hfinite⟩ := reachable_finite (.step hreach.reachable trivial hs)
      have hsus := reachable_suspendedOnce hreach.reachable
      rcases Option.eq_none_or_eq_some s.awaiters with hnone | ⟨a, hhead⟩
      · -- an awaiter is about to be put on the list
        obtain ⟨a, ha⟩ := (not_not.mp hlisted).resolve_left (not_not_intro hnone)
        have hpush : system.step t (.await a false) = some (t.push a) := by
          have ha' : t.awaiting a = .exchange none := ha
          have hnone' : t.awaiters = none := hnone
          show awaitStep t a false = _
          rw [awaitStep, ha']
          exact if_pos ⟨hnone', rfl⟩
        have hone : (t.push a).suspensions a ≤ 1 := by
          show update s.suspensions a (s.suspensions a + 1) a ≤ 1
          rw [update_self, hsus.pushing a none ha]
        obtain ⟨acts, u, hrun, hu⟩ := read_twice (s := t.push a) rfl hload rfl hone hfinite
        exact ⟨.await a false :: acts, u, (System.run_cons _ hpush).trans hrun, hu⟩
      · exact read_twice rfl hload hhead (hsus.bound a) hfinite

/-- **Nobody is resumed twice exactly as long as no `count_down(0)` finds an awaiter on an expired
latch.** In every run in which a `count_down(0)` exchanges zero for zero only while nobody is on the
list of awaiters, nor about to be put there, no coroutine is resumed more often than it suspended;
and every other such exchange can be followed by a second resumption of a coroutine that suspended
once. In particular all is well where no `count_down(0)` meets an expired latch. -/
theorem resumed_once_iff_released_once (s : State) (h : system.ReachableUnder ReleasedOnce s) :
    s.ResumedOnce ∧ ∀ act t, system.step s act = some t → ¬ ReleasedOnce s act →
      ∃ acts u, system.run t acts = some u ∧ ¬ u.ResumedOnce :=
  ⟨(reachable_released h).2.bound, fun act t hs hnot => zero_exchange_breaks s act t h hs hnot⟩

/-- A `count_down(0)` before the release resumes nobody. -/
def countDownZeroFirst : List Act :=
  [.coAwait 7, .await 7 false, .await 7 false, .await 7 false, .await 7 false,
    .callCountDown 0 0, .countDown 0 false, .countDown 0 false,
    .callCountDown 0 1, .countDown 0 false, .countDown 0 false, .countDown 0 false,
    .countDown 0 false, .countDown 0 false]

theorem resumed_once_iff_released_once_zero_first :
    ∃ s, system.ReachableUnder ReleasedOnce s ∧ s.suspensions 7 = 1 ∧ s.resumptions 7 = 1 ∧
      s.ResumedOnce := by
  have hlate : ∀ s : State, ∀ d, s.counting d ≠ .exchange 0 0 →
      ReleasedOnce s (.countDown d false) := fun s d hd hagain => absurd hagain.2.2 hd
  have hm : system.Meets ReleasedOnce (initial 1) countDownZeroFirst :=
    ⟨nofun, _, rfl, nofun, _, rfl, nofun, _, rfl, nofun, _, rfl, nofun, _, rfl,
      nofun, _, rfl, hlate _ _ (by decide), _, rfl, hlate _ _ (by decide), _, rfl,
      nofun, _, rfl, hlate _ _ (by decide), _, rfl, hlate _ _ (by decide), _, rfl,
      hlate _ _ (by decide), _, rfl, hlate _ _ (by decide), _, rfl, hlate _ _ (by decide), _, rfl,
      trivial⟩
  have h0 : system.ReachableUnder ReleasedOnce (initial 1) := .init ⟨1, by decide, rfl⟩
  have hs := h0.run hm rfl
  exact ⟨_, hs, rfl, rfl, (resumed_once_iff_released_once _ hs).1⟩

end Coroutines.AsyncLatch
