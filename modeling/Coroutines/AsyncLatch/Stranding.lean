import Coroutines.AsyncLatch.Suspension

/-!
# Who is stranded on a latch

An awaiter that is pushed when nobody will read the list any more stays suspended: whatever is in
progress can run to its end without it, since the lists that are still being walked were read before
the push.
-/

namespace Coroutines.AsyncLatch

open Transition Links Function

/-! ## The lists that are walked -/

/-- Every list that can be walked ends, and holds only awaiters that have suspended. -/
structure Strung (s : State) : Prop where
  link : ∀ a oldHead, s.awaiting a = .exchange oldHead → s.nextAwaiter a = oldHead
  head : Ends s.nextAwaiter (fun a => 0 < s.suspensions a) s.awaiters
  left : ∀ d p, s.counting d = .resuming p →
    Ends s.nextAwaiter (fun a => 0 < s.suspensions a) p

theorem initial_strung (count : ℕ) : Strung (initial count) where
  link _ _ h := by simp [initial] at h
  head := .null
  left _ _ h := by simp [initial] at h

section
variable {s s' : State}

/-- An await moves. Its own link may be cleared; and written, if it never suspended. -/
theorem Strung.goAwait (h : Strung s) {a : ℕ} {pc : AwaitPc} {q : Option ℕ}
    (hq : q = none ∨ q = s.nextAwaiter a ∨ s.suspensions a = 0)
    (hlink : ∀ oldHead, pc = .exchange oldHead → q = oldHead) :
    Strung ({ s with nextAwaiter := update s.nextAwaiter a q }.goAwait a pc) := by
  have hkeep : ∀ {p}, Ends s.nextAwaiter (fun a => 0 < s.suspensions a) p →
      Ends (update s.nextAwaiter a q) (fun a => 0 < s.suspensions a) p := by
    intro p hp
    refine hp.mono fun b hb => ⟨hb, ?_⟩
    by_cases hba : b = a
    · subst hba
      rw [update_self]
      rcases hq with hq | hq | hq
      · exact Or.inr hq
      · exact Or.inl hq
      · exact absurd hq (Nat.ne_of_gt hb)
    · exact Or.inl (update_of_ne hba _ _)
  refine ⟨fun b oldHead hb => ?_, hkeep h.head, fun d p hd => hkeep (h.left d p hd)⟩
  by_cases hba : b = a
  · subst hba
    simp only [State.goAwait, update_self] at hb ⊢
    exact hlink oldHead hb
  · simp only [State.goAwait, update_of_ne hba] at hb ⊢
    exact h.link b oldHead hb

theorem Strung.goAwait_self (h : Strung s) {a : ℕ} {pc : AwaitPc}
    (hex : ∀ oldHead, pc ≠ .exchange oldHead) : Strung (s.goAwait a pc) := by
  have hself := h.goAwait (a := a) (Or.inr (Or.inl rfl)) fun o ho => absurd ho (hex o)
  rwa [update_eq_self] at hself

theorem Strung.push (h : Strung s) {a : ℕ} (ha : s.awaiting a = .exchange s.awaiters) :
    Strung (s.push a) := by
  have hkeep : ∀ {p}, Ends s.nextAwaiter (fun a => 0 < s.suspensions a) p →
      Ends s.nextAwaiter (fun b => 0 < update s.suspensions a (s.suspensions a + 1) b) p := by
    intro p hp
    refine hp.mono fun b hb => ⟨?_, Or.inl rfl⟩
    by_cases hba : b = a
    · rw [hba, update_self]
      exact Nat.succ_pos _
    · rwa [update_of_ne hba]
  refine ⟨fun b oldHead hb => ?_, ?_, fun d p hd => hkeep (h.left d p hd)⟩
  · have hb : update s.awaiting a .suspended b = .exchange oldHead := hb
    by_cases hba : b = a
    · rw [hba, update_self] at hb
      cases hb
    · rw [update_of_ne hba] at hb
      exact h.link b oldHead hb
  · refine .node ?_ ?_
    · show 0 < update s.suspensions a (s.suspensions a + 1) a
      rw [update_self]
      exact Nat.succ_pos _
    · rw [show (s.push a).nextAwaiter a = s.awaiters from h.link a _ ha]
      exact hkeep h.head

/-- A call moves on, with a list to walk that ends or with none. -/
theorem Strung.goDown (h : Strung s) {d count : ℕ} {pc : DownPc}
    (hpc : ∀ p, pc = .resuming p → Ends s.nextAwaiter (fun a => 0 < s.suspensions a) p) :
    Strung ({ s with count := count }.goDown d pc) := by
  refine ⟨h.link, h.head, fun e p he => ?_⟩
  have he : update s.counting d pc e = .resuming p := he
  by_cases hed : e = d
  · rw [hed, update_self] at he
    exact hpc p he
  · rw [update_of_ne hed] at he
    exact h.left e p he

theorem Strung.resume (h : Strung s) (a : ℕ) : Strung (s.resume a) := by
  refine ⟨fun b oldHead hb => h.link b oldHead ?_, h.head, h.left⟩
  have hb : (if s.awaiting a = .suspended then update s.awaiting a .idle else s.awaiting) b =
    .exchange oldHead := hb
  split at hb
  · by_cases hba : b = a
    · rw [hba, update_self] at hb
      cases hb
    · rwa [update_of_ne hba] at hb
  · exact hb

theorem awaitStep_strung {a : ℕ} {spurious : Bool} (h : Strung s) (hsus : SuspendedOnce s)
    (hs : awaitStep s a spurious = some s') : Strung s' := by
  unfold awaitStep at hs
  split at hs
  · cases hs
  · cases hs
    exact h.goAwait_self (by intro o; split <;> simp)
  · cases hs
    exact h.goAwait_self (by simp)
  · rename_i oldHead hpc
    split at hs
    · cases hs
      exact h.goAwait_self (by simp)
    · rename_i hexp
      cases hs
      refine h.goAwait (Or.inr (Or.inr ?_)) (by simp)
      exact hsus.early hexp a (by simp [State.Suspended, hpc])
  · rename_i oldHead hpc
    split at hs
    · rename_i hcas
      obtain ⟨rfl, -⟩ := hcas
      cases hs
      exact h.push hpc
    · cases hs
      exact h.goAwait_self (by simp)
  · cases hs

theorem countDownStep_strung {d : ℕ} {spurious : Bool} (h : Strung s)
    (hs : countDownStep s d spurious = some s') : Strung s' := by
  unfold countDownStep at hs
  split at hs
  · cases hs
  · cases hs
    exact h.goDown (by simp)
  · split at hs
    · cases hs
      exact h.goDown (by simp)
    · split at hs
      · cases hs
        exact h.goDown (by intro p; split <;> simp)
      · cases hs
        exact h.goDown (by simp)
  · cases hs
    refine h.goDown fun p hp => ?_
    rw [← DownPc.resuming.inj hp]
    exact h.head
  · cases hs
    exact h.goDown (by simp)
  · rename_i a hpc
    cases hs
    refine Strung.resume (h.goDown fun p hp => ?_) a
    rw [← DownPc.resuming.inj hp]
    cases h.left d (some a) hpc with
    | node _ hrest => exact hrest

theorem step_strung {act : Act} (h : Strung s) (hsus : SuspendedOnce s)
    (hs : step s act = some s') : Strung s' := by
  cases act with
  | coAwait a =>
      obtain ⟨-, heq⟩ := Option.ite_none_right_eq_some.mp hs
      rw [← Option.some.inj heq]
      exact h.goAwait (Or.inl rfl) (by simp)
  | await a spurious => exact awaitStep_strung h hsus hs
  | callCountDown d n =>
      obtain ⟨-, heq⟩ := Option.ite_none_right_eq_some.mp hs
      rw [← Option.some.inj heq]
      exact h.goDown (by simp)
  | countDown d spurious => exact countDownStep_strung h hs

theorem reachable_strung (h : system.Reachable s) : Strung s := by
  have hall : (s.Early ∧ SuspendedOnce s) ∧ Strung s := by
    refine h.invariant (I := fun s => (s.Early ∧ SuspendedOnce s) ∧ Strung s) ?_ ?_
    · rintro _ ⟨count, -, rfl⟩
      exact ⟨⟨initial_early count, initial_suspendedOnce count⟩, initial_strung count⟩
    · rintro s act s' ⟨⟨hearly, hsus⟩, hstrung⟩ - hs
      exact ⟨⟨step_early hearly hs, step_suspendedOnce hsus hearly hs⟩,
        step_strung hstrung hsus hs⟩
  exact hall.2

/-! ## The way past an awaiter -/

/-- The call neither reads the list again nor resumes the awaiter. -/
def DownPc.Misses (next : ℕ → Option ℕ) (a : ℕ) : DownPc → Prop
  | .idle => True
  | .loadCount n => n ≠ 0
  | .exchange n _ => n ≠ 0
  | .loadAwaiters => False
  | .resuming p => Ends next (· ≠ a) p

/-- The awaiter was pushed too late. -/
structure Late (a : ℕ) (s : State) : Prop where
  expired : s.expired
  suspended : s.Suspended a
  misses : ∀ d, (s.counting d).Misses s.nextAwaiter a

variable {a : ℕ}

theorem Late.goDown (h : Late a s) {pc : DownPc} (hpc : pc.Misses s.nextAwaiter a) (d : ℕ) :
    Late a (s.goDown d pc) :=
  ⟨h.expired, h.suspended, (forall_update_iff s.counting fun _ x => x.Misses s.nextAwaiter a).mpr
    ⟨hpc, fun e _ => h.misses e⟩⟩

theorem Late.goAwait (h : Late a s) {b : ℕ} (hb : b ≠ a) (pc : AwaitPc) :
    Late a (s.goAwait b pc) := by
  refine ⟨h.expired, ?_, h.misses⟩
  show update s.awaiting b pc a = .suspended
  rw [update_of_ne hb.symm]
  exact h.suspended

theorem Late.resume (h : Late a s) {b : ℕ} (hb : b ≠ a) : Late a (s.resume b) := by
  refine ⟨h.expired, ?_, h.misses⟩
  show (if s.awaiting b = .suspended then update s.awaiting b .idle else s.awaiting) a = .suspended
  split
  · exact (update_of_ne hb.symm _ _).trans h.suspended
  · exact h.suspended

/-- A later state, in which no other call has moved than `d`, and no await but a resumed one. -/
structure Past (a d : ℕ) (s t : State) : Prop where
  leads : system.Leads s t
  late : Late a t
  calls : ∀ e, e ≠ d → t.counting e = s.counting e
  awaits : ∀ b, t.awaiting b = s.awaiting b ∨ t.awaiting b = .idle

theorem Late.past (h : Late a s) (d : ℕ) : Past a d s s :=
  ⟨Relation.ReflTransGen.refl, h, fun _ _ => rfl, fun _ => Or.inl rfl⟩

theorem Past.trans {d : ℕ} {t u : State} (h : Past a d s t) (h' : Past a d t u) :
    Past a d s u := by
  refine ⟨h.leads.trans h'.leads, h'.late, fun e he => (h'.calls e he).trans (h.calls e he),
    fun b => ?_⟩
  rcases h'.awaits b with hb | hb
  · rw [hb]
    exact h.awaits b
  · exact Or.inr hb

/-- A call makes one step, and does not resume. -/
theorem Late.step_down (h : Late a s) {d : ℕ} {spurious : Bool} {pc : DownPc}
    (hs : countDownStep s d spurious = some (s.goDown d pc)) (hpc : pc.Misses s.nextAwaiter a) :
    Past a d s (s.goDown d pc) :=
  ⟨.single (l := .countDown d spurious) hs, h.goDown hpc d, fun _ he => update_of_ne he _ _,
    fun _ => Or.inl rfl⟩

/-- **A list is walked** to its end. -/
theorem Late.walk {next : ℕ → Option ℕ} {p : Option ℕ} (hp : Ends next (· ≠ a) p) {d : ℕ}
    (h : Late a s) (hnext : s.nextAwaiter = next) (hd : s.counting d = .resuming p) :
    ∃ t, Past a d s t ∧ t.counting d = .idle := by
  induction hp generalizing s with
  | null =>
      have hs : countDownStep s d false = some (s.goDown d .idle) := by
        rw [countDownStep, hd]
      exact ⟨_, h.step_down hs trivial, update_self ..⟩
  | @node b hb hrest ih =>
      have hs : countDownStep s d false =
          some ((s.goDown d (.resuming (s.nextAwaiter b))).resume b) := by
        rw [countDownStep, hd]
      rw [← hnext] at hrest ih
      have hmisses : (DownPc.resuming (s.nextAwaiter b)).Misses s.nextAwaiter a := hrest
      have hlate := (h.goDown hmisses d).resume hb
      have hpast : Past a d s ((s.goDown d (.resuming (s.nextAwaiter b))).resume b) := by
        refine ⟨.single (l := .countDown d false) hs, hlate, fun e he => update_of_ne he _ _,
          fun c => ?_⟩
        show (if s.awaiting b = .suspended then update s.awaiting b .idle else s.awaiting) c = _ ∨
          (if s.awaiting b = .suspended then update s.awaiting b .idle else s.awaiting) c = _
        split
        · by_cases hcb : c = b
          · rw [hcb, update_self]
            exact Or.inr rfl
          · exact Or.inl (update_of_ne hcb _ _)
        · exact Or.inl rfl
      obtain ⟨t, ht, hidle⟩ := ih hlate rfl (update_self ..)
      exact ⟨t, hpast.trans ht, hidle⟩

/-- **A call returns** without the awaiter. -/
theorem Late.call_returns (h : Late a s) (d : ℕ) : ∃ t, Past a d s t ∧ t.counting d = .idle := by
  have hmisses := h.misses d
  -- a call that finds the count below its argument leaves its loop
  have hleave : ∀ {t : State} {n k : ℕ}, Late a t → t.counting d = .exchange n k → k < n →
      ∃ u, Past a d t u ∧ u.counting d = .idle := by
    intro t n k ht hd hlt
    have hs : countDownStep t d false = some (t.goDown d .idle) := by
      rw [countDownStep, hd]
      exact if_pos hlt
    exact ⟨_, ht.step_down hs trivial, update_self ..⟩
  have hagain : ∀ {n : ℕ}, n ≠ 0 → Past a d s (s.goDown d (.exchange n s.count)) →
      ∃ u, Past a d s u ∧ u.counting d = .idle := by
    intro n hn hpast
    have hlt : s.count < n := by
      rw [show s.count = 0 from h.expired]
      exact Nat.pos_of_ne_zero hn
    obtain ⟨u, hu, hidle⟩ := hleave hpast.late (update_self ..) hlt
    exact ⟨u, hpast.trans hu, hidle⟩
  cases hd : s.counting d with
  | idle => exact ⟨s, h.past d, hd⟩
  | loadAwaiters =>
      rw [hd] at hmisses
      exact hmisses.elim
  | resuming p =>
      rw [hd] at hmisses
      exact h.walk hmisses rfl hd
  | loadCount n =>
      rw [hd] at hmisses
      have hs : countDownStep s d false = some (s.goDown d (.exchange n s.count)) := by
        rw [countDownStep, hd]
      exact hagain hmisses (h.step_down hs hmisses)
  | exchange n oldCount =>
      rw [hd] at hmisses
      by_cases hlt : oldCount < n
      · exact hleave h hd hlt
      · have hs : countDownStep s d true = some (s.goDown d (.exchange n s.count)) := by
          rw [countDownStep, hd]
          simp only [if_neg hlt, Bool.true_eq_false, and_false, if_false]
        exact hagain hmisses (h.step_down hs hmisses)

/-- **All calls return**, one after the other. -/
theorem Late.calls_return (l : List ℕ) (h : Late a s) (hl : ∀ d, s.counting d ≠ .idle → d ∈ l) :
    ∃ t, system.Leads s t ∧ Late a t ∧ (∀ d, t.counting d = .idle) ∧
      ∀ b, t.awaiting b = s.awaiting b ∨ t.awaiting b = .idle := by
  induction l generalizing s with
  | nil =>
      refine ⟨s, Relation.ReflTransGen.refl, h, fun d => ?_, fun _ => Or.inl rfl⟩
      by_contra hd
      cases hl d hd
  | cons d l ih =>
      obtain ⟨t, ht, hidle⟩ := h.call_returns d
      have hrest : ∀ e, t.counting e ≠ .idle → e ∈ l := by
        intro e he
        have hed : e ≠ d := by
          rintro rfl
          exact he hidle
        rw [ht.calls e hed] at he
        exact (List.mem_cons.mp (hl e he)).resolve_left hed
      obtain ⟨u, hleads, hlate, hcalls, hawaits⟩ := ih ht.late hrest
      refine ⟨u, ht.leads.trans hleads, hlate, hcalls, fun b => ?_⟩
      rcases hawaits b with hb | hb
      · rw [hb]
        exact ht.awaits b
      · exact Or.inr hb

/-- **An await that has not suspended** finds the latch expired and goes on. -/
theorem Late.await_returns (h : Late a s) {b : ℕ} (hb : (s.awaiting b).suspending = true) :
    ∃ t, system.Leads s t ∧ Late a t ∧ t.counting = s.counting ∧ t.awaiting b = .idle ∧
      ∀ c, c ≠ b → t.awaiting c = s.awaiting c := by
  have hba : b ≠ a := by
    rintro rfl
    rw [show s.awaiting b = .suspended from h.suspended] at hb
    cases hb
  have htest : ∀ {t : State} {p : Option ℕ}, Late a t → t.awaiting b = .checkExpired p →
      system.Leads t (t.goAwait b .idle) := by
    intro t p ht hp
    refine .single (l := .await b false) ?_
    show awaitStep t b false = _
    rw [awaitStep, hp]
    exact if_pos ht.expired
  have hagain : ∀ {x : Bool},
      awaitStep s b x = some (s.goAwait b (.checkExpired s.awaiters)) →
      ∃ t, system.Leads s t ∧ Late a t ∧ t.counting = s.counting ∧ t.awaiting b = .idle ∧
        ∀ c, c ≠ b → t.awaiting c = s.awaiting c := by
    intro x hs
    have hlate := h.goAwait hba (.checkExpired s.awaiters)
    refine ⟨_, .trans (.single (l := .await b x) hs) (htest hlate (update_self ..)),
      hlate.goAwait hba .idle, rfl, update_self .., fun c hc => ?_⟩
    exact (update_of_ne hc _ _).trans (update_of_ne hc _ _)
  cases hpc : s.awaiting b with
  | idle | awaitReady | suspended =>
      rw [hpc] at hb
      cases hb
  | loadHead =>
      apply hagain (x := false)
      rw [awaitStep, hpc]
  | exchange p =>
      apply hagain (x := true)
      rw [awaitStep, hpc]
      simp only [Bool.true_eq_false, and_false, if_false]
  | checkExpired p =>
      exact ⟨_, htest h hpc, h.goAwait hba .idle, rfl, update_self ..,
        fun c hc => update_of_ne hc _ _⟩

theorem Late.awaits_return (l : List ℕ) (h : Late a s)
    (hl : ∀ b, (s.awaiting b).suspending = true → b ∈ l) :
    ∃ t, system.Leads s t ∧ Late a t ∧ t.counting = s.counting ∧
      ∀ b, (t.awaiting b).suspending = false := by
  induction l generalizing s with
  | nil =>
      refine ⟨s, Relation.ReflTransGen.refl, h, rfl, fun b => ?_⟩
      by_contra hb
      cases hl b (Bool.not_eq_false _ ▸ hb)
  | cons b l ih =>
      obtain ⟨t, hleads, hlate, hcalls, hrest⟩ : ∃ t, system.Leads s t ∧ Late a t ∧
          t.counting = s.counting ∧ ∀ c, (t.awaiting c).suspending = true → c ∈ l := by
        by_cases hb : (s.awaiting b).suspending = true
        · obtain ⟨t, hleads, hlate, hcalls, hidle, hothers⟩ := h.await_returns hb
          refine ⟨t, hleads, hlate, hcalls, fun c hc => ?_⟩
          have hcb : c ≠ b := by
            rintro rfl
            rw [hidle] at hc
            cases hc
          rw [hothers c hcb] at hc
          exact (List.mem_cons.mp (hl c hc)).resolve_left hcb
        · refine ⟨s, Relation.ReflTransGen.refl, h, rfl, fun c hc => ?_⟩
          apply (List.mem_cons.mp (hl c hc)).resolve_left
          rintro rfl
          exact hb hc
      obtain ⟨u, hleads', hlate', hcalls', hnone⟩ := ih hlate hrest
      exact ⟨u, hleads.trans hleads', hlate', hcalls'.trans hcalls, hnone⟩

/-- **Whatever is in progress comes to its end**, and the awaiter is still suspended. -/
theorem Late.stranded (h : Late a s) (hawaiting : {b | s.awaiting b ≠ .idle}.Finite)
    (hcounting : {d | s.counting d ≠ .idle}.Finite) :
    ∃ acts u, system.run s acts = some u ∧ u.Stranded := by
  obtain ⟨t, hleads, hlate, hcalls, hawaits⟩ :=
    h.calls_return hcounting.toFinset.toList fun d hd => by simpa using hd
  have hfew : ∀ b, (t.awaiting b).suspending = true → b ∈ hawaiting.toFinset.toList := by
    intro b hb
    have hbusy : t.awaiting b ≠ .idle := by
      intro hidle
      rw [hidle] at hb
      cases hb
    rw [(hawaits b).resolve_right hbusy] at hbusy
    simpa using hbusy
  obtain ⟨u, hleads', hlate', hcalls', hnone⟩ := hlate.awaits_return _ hfew
  obtain ⟨acts, hrun⟩ := (hleads.trans hleads').exists_run
  refine ⟨acts, u, hrun, hlate'.expired, hnone, fun d => ?_, a, hlate'.suspended⟩
  rw [hcalls']
  exact hcalls d

/-- **A push that is too late** strands the coroutine. -/
theorem late_push (h : system.Reachable s) (ha : s.awaiting a = .exchange s.awaiters)
    (hread : ¬ s.ReadToCome) : Late a (s.push a) := by
  obtain ⟨hexp, hnone⟩ := not_or.mp hread
  have hfirst := (reachable_suspendedOnce h).pushing a _ ha
  refine ⟨not_not.mp hexp, update_self .., fun d => ?_⟩
  have hd : ¬ s.WillRead d := fun hd => hnone ⟨d, hd⟩
  obtain ⟨hload, hzero⟩ := not_or.mp hd
  obtain ⟨hcount, hexchange⟩ := not_or.mp fun h => hzero ⟨not_not.mp hexp, h⟩
  show (s.counting d).Misses s.nextAwaiter a
  cases hpc : s.counting d with
  | idle => trivial
  | loadAwaiters => exact hload hpc
  | loadCount n =>
      rintro rfl
      exact hcount hpc
  | exchange n oldCount =>
      rintro rfl
      exact hexchange ⟨oldCount, hpc⟩
  | resuming p =>
      refine ((reachable_strung h).left d p hpc).mono fun b hb => ⟨?_, Or.inl rfl⟩
      rintro rfl
      exact absurd hfirst (Nat.ne_of_gt hb)

end

/-- **Nobody is stranded exactly if every push is in time.** As long as each awaiter is pushed while
the count is nonzero or some `count_down` still has to read the list, an expired latch with nothing
in progress has no suspended coroutine; and after every other push what is in progress can run to
its end and leave the coroutine suspended. -/
theorem not_stranded_of_in_time (s : State) (h : system.ReachableUnder InTime s) :
    ¬ s.Stranded ∧ ∀ act t, system.step s act = some t → ¬ InTime s act →
      ∃ acts u, system.run t acts = some u ∧ u.Stranded := by
  refine ⟨(reachable_inv h).not_stranded, fun act t hs hnot => ?_⟩
  obtain ⟨hawaiting, hcounting⟩ := reachable_finite (.step h.reachable trivial hs)
  cases act with
  | await a spurious =>
      obtain ⟨⟨ha, rfl⟩, hread⟩ := Classical.not_imp.mp hnot
      obtain rfl : t = s.push a := by
        have hs : awaitStep s a false = some t := hs
        rw [awaitStep, ha] at hs
        exact (Option.some.inj ((if_pos ⟨rfl, rfl⟩).symm.trans hs)).symm
      exact (late_push h.reachable ha hread).stranded hawaiting hcounting
  | coAwait a => exact absurd trivial hnot
  | callCountDown d n => exact absurd trivial hnot
  | countDown d spurious => exact absurd trivial hnot

/-- The same two calls with the push before the release. -/
def pushedInTime : List Act :=
  [.coAwait 7, .await 7 false, .await 7 false, .await 7 false, .await 7 false,
    .callCountDown 0 1, .countDown 0 false, .countDown 0 false, .countDown 0 false,
    .countDown 0 false, .countDown 0 false]

theorem not_stranded_of_in_time_released :
    ∃ s, system.ReachableUnder InTime s ∧ s.expired ∧ s.resumptions 7 = 1 ∧
      ¬ s.Stranded := by
  have hread : ∀ s : State, s.count = 1 → s.ReadToCome := fun s hs =>
    Or.inl (by simp [State.expired, hs])
  have hm : system.Meets InTime (initial 1) pushedInTime :=
    ⟨trivial, _, rfl, fun _ => hread _ rfl, _, rfl, fun _ => hread _ rfl, _, rfl,
      fun _ => hread _ rfl, _, rfl, fun _ => hread _ rfl, _, rfl, trivial, _, rfl,
      trivial, _, rfl, trivial, _, rfl, trivial, _, rfl, trivial, _, rfl, trivial, _, rfl,
      trivial⟩
  have h0 : system.ReachableUnder InTime (initial 1) := .init ⟨1, by decide, rfl⟩
  have hs := h0.run hm rfl
  exact ⟨_, hs, rfl, rfl, (not_stranded_of_in_time _ hs).1⟩

end Coroutines.AsyncLatch
