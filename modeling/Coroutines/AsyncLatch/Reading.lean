import Coroutines.AsyncLatch

/-!
# Reading the list of a latch once

The list of awaiters is read and never taken off the latch. As long as a call that finds an awaiter
on the list is the first one that does, what one call has left to resume, or the list if nobody has
read it yet, are awaiters that are suspended and not resumed.
-/

namespace Coroutines.AsyncLatch

open Transition Links Function

/-- No coroutine has been resumed more often than it suspended. -/
def State.ResumedOnce (s : State) : Prop := ∀ a, s.resumptions a ≤ s.suspensions a

/-! ## Reading the list once -/

/-- No awaiter has been resumed, and no call is about to resume one. -/
def State.Unread (s : State) : Prop :=
  (∀ a, s.resumptions a = 0) ∧ ∀ d a, s.counting d ≠ .resuming (some a)

/-- A call that finds an awaiter on the list is the first one to do so. -/
def FirstRead (s : State) : Act → Prop
  | .countDown d _ => s.counting d = .loadAwaiters → s.awaiters = none ∨ s.Unread
  | _ => True

/-- The awaiters from the pointer `p` on are `l`: all suspended, and not resumed yet. -/
structure State.Pending (s : State) (p : Option ℕ) (l : List ℕ) : Prop where
  chain : Chain s.nextAwaiter p l
  nodup : l.Nodup
  suspended : ∀ a ∈ l, s.Suspended a
  owed : ∀ a ∈ l, s.resumptions a < s.suspensions a

theorem pending_none (s : State) : s.Pending none [] where
  chain := rfl
  nodup := List.nodup_nil
  suspended _ ha := by cases ha
  owed _ ha := by cases ha

/-- What is pending stays so while its awaiters are left alone. -/
theorem State.Pending.keep {s s' : State} {p : Option ℕ} {l : List ℕ} (h : s.Pending p l)
    (hsusp : ∀ a ∈ l, s'.Suspended a) (hnext : ∀ a ∈ l, s'.nextAwaiter a = s.nextAwaiter a)
    (hres : ∀ a ∈ l, s'.resumptions a = s.resumptions a)
    (hsus : ∀ a ∈ l, s'.suspensions a = s.suspensions a) : s'.Pending p l where
  chain := h.chain.congr hnext
  nodup := h.nodup
  suspended := hsusp
  owed a ha := by
    rw [hres a ha, hsus a ha]
    exact h.owed a ha

/-- A move of `count_down` leaves alone what is pending. -/
theorem State.Pending.goDown {s : State} {p : Option ℕ} {l : List ℕ} (h : s.Pending p l)
    (d count : ℕ) (pc : DownPc) : ({ s with count := count }.goDown d pc).Pending p l :=
  ⟨h.chain, h.nodup, h.suspended, h.owed⟩

/-- At most one call has awaiters to resume; these, or the list if nobody has read it, are
suspended and not resumed yet. -/
structure Once (s : State) : Prop where
  link : ∀ a oldHead, s.awaiting a = .exchange oldHead → s.nextAwaiter a = oldHead
  bound : s.ResumedOnce
  one : ∀ d e a b, s.counting d = .resuming (some a) → s.counting e = .resuming (some b) → d = e
  reading : ∀ d p, s.counting d = .resuming p → ∃ l, s.Pending p l
  unread : s.Unread → ∃ l, s.Pending s.awaiters l

theorem initial_once (count : ℕ) : Once (initial count) where
  link _ _ h := by simp [initial] at h
  bound _ := Nat.le_refl 0
  one _ _ _ _ h := by simp [initial] at h
  reading _ _ h := by simp [initial] at h
  unread _ := ⟨[], pending_none _⟩

/-! ## What each step does -/

/-- An await moves that is not suspended, and may write its own link. -/
theorem Once.goAwait {s : State} (h : Once s) {a : ℕ} {pc : AwaitPc} {q : Option ℕ}
    (ha : ¬ s.Suspended a) (hlink : ∀ oldHead, pc = .exchange oldHead → q = oldHead) :
    Once ({ s with nextAwaiter := update s.nextAwaiter a q }.goAwait a pc) := by
  have hkeep : ∀ p l, s.Pending p l →
      ({ s with nextAwaiter := update s.nextAwaiter a q }.goAwait a pc).Pending p l := by
    intro p l hl
    have hne : ∀ b ∈ l, b ≠ a := by
      rintro b hb rfl
      exact ha (hl.suspended b hb)
    apply hl.keep
    · intro b hb
      show update s.awaiting a pc b = .suspended
      rw [update_of_ne (hne b hb)]
      exact hl.suspended b hb
    · intro b hb
      exact update_of_ne (hne b hb) _ _
    · exact fun _ _ => rfl
    · exact fun _ _ => rfl
  constructor
  case link =>
    intro b oldHead hb
    by_cases hba : b = a
    · subst hba
      simp only [State.goAwait, update_self] at hb ⊢
      exact hlink oldHead hb
    · simp only [State.goAwait, update_of_ne hba] at hb ⊢
      exact h.link b oldHead hb
  case bound => exact h.bound
  case one => exact h.one
  case reading =>
    intro d p hd
    obtain ⟨l, hl⟩ := h.reading d p hd
    exact ⟨l, hkeep p l hl⟩
  case unread =>
    intro hunread
    obtain ⟨l, hl⟩ := h.unread hunread
    exact ⟨l, hkeep _ l hl⟩

theorem Once.goAwait_self {s : State} (h : Once s) {a : ℕ} {pc : AwaitPc}
    (ha : ¬ s.Suspended a) (hex : ∀ oldHead, pc ≠ .exchange oldHead) :
    Once (s.goAwait a pc) := by
  have hself := h.goAwait (q := s.nextAwaiter a) ha fun o ho => absurd ho (hex o)
  rwa [update_eq_self] at hself

/-- **A push** puts the awaiter in front of what is pending on the list. -/
theorem Once.push {s : State} (h : Once s) {a : ℕ}
    (ha : s.awaiting a = .exchange s.awaiters) : Once (s.push a) := by
  have hne : ∀ p l, s.Pending p l → ∀ b ∈ l, b ≠ a := by
    rintro p l hl b hb rfl
    have hb' : s.awaiting b = .suspended := hl.suspended b hb
    rw [ha] at hb'
    cases hb'
  have hself : (s.push a).Suspended a := update_self _ _ _
  have hkeep : ∀ p l, s.Pending p l → (s.push a).Pending p l := by
    intro p l hl
    apply hl.keep
    · intro b hb
      show update s.awaiting a .suspended b = .suspended
      rw [update_of_ne (hne p l hl b hb)]
      exact hl.suspended b hb
    · exact fun _ _ => rfl
    · exact fun _ _ => rfl
    · intro b hb
      exact update_of_ne (hne p l hl b hb) _ _
  have hbound : (s.push a).ResumedOnce := by
    intro b
    have hb := h.bound b
    show s.resumptions b ≤ update s.suspensions a (s.suspensions a + 1) b
    by_cases hba : b = a
    · subst hba
      rw [update_self]
      exact Nat.le_succ_of_le hb
    · rw [update_of_ne hba]
      exact hb
  constructor
  case link =>
    intro b oldHead hb
    have hba : b ≠ a := by
      rintro rfl
      rw [show (s.push b).awaiting b = .suspended from hself] at hb
      cases hb
    apply h.link b oldHead
    rw [← hb]
    exact (update_of_ne hba _ _).symm
  case bound => exact hbound
  case one => exact h.one
  case reading =>
    intro d p hd
    obtain ⟨l, hl⟩ := h.reading d p hd
    exact ⟨l, hkeep p l hl⟩
  case unread =>
    intro hunread
    obtain ⟨l, hl⟩ := h.unread hunread
    have hl' := hkeep _ l hl
    have hsuspensions : (s.push a).suspensions a = s.suspensions a + 1 := update_self _ _ _
    refine ⟨a :: l, ⟨rfl, ?_⟩, List.nodup_cons.mpr ⟨fun hmem => hne _ l hl a hmem rfl, hl.nodup⟩,
      ?_, ?_⟩
    · rw [show (s.push a).nextAwaiter a = s.awaiters from h.link a _ ha]
      exact hl'.chain
    · intro b hb
      rcases List.mem_cons.mp hb with rfl | hb
      · exact hself
      · exact hl'.suspended b hb
    · intro b hb
      rcases List.mem_cons.mp hb with rfl | hb
      · rw [hsuspensions]
        exact Nat.lt_succ_of_le (h.bound b)
      · exact hl'.owed b hb

/-- One `count_down` call moves on without awaiters to resume; the count may drop. -/
theorem Once.goDown {s : State} (h : Once s) {d count : ℕ} {pc : DownPc}
    (hd : ∀ a, s.counting d ≠ .resuming (some a)) (hpc : ∀ a, pc ≠ .resuming (some a)) :
    Once ({ s with count := count }.goDown d pc) := by
  have hback : ∀ e a, update s.counting d pc e = .resuming (some a) →
      s.counting e = .resuming (some a) := by
    intro e a he
    by_cases hed : e = d
    · subst hed
      rw [update_self] at he
      exact absurd he (hpc a)
    · rwa [update_of_ne hed] at he
  constructor
  case link => exact h.link
  case bound => exact h.bound
  case one =>
    intro e f a b he hf
    exact h.one e f a b (hback e a he) (hback f b hf)
  case reading =>
    intro e p he
    cases p with
    | none => exact ⟨[], pending_none _⟩
    | some a =>
        obtain ⟨l, hl⟩ := h.reading e (some a) (hback e a he)
        exact ⟨l, hl.goDown _ _ _⟩
  case unread =>
    rintro ⟨hzero, hnone⟩
    have hunread : s.Unread := by
      refine ⟨hzero, fun e a he => ?_⟩
      by_cases hed : e = d
      · subst hed
        exact hd a he
      · apply hnone e a
        show update s.counting d pc e = .resuming (some a)
        rwa [update_of_ne hed]
    obtain ⟨l, hl⟩ := h.unread hunread
    exact ⟨l, hl.goDown _ _ _⟩

/-- **The first reading** of the list hands its awaiters to one call. -/
theorem Once.read {s : State} (h : Once s) {d : ℕ} (hunread : s.Unread) :
    Once (s.goDown d (.resuming s.awaiters)) := by
  have honly : ∀ e a, update s.counting d (.resuming s.awaiters) e = .resuming (some a) →
      e = d := by
    intro e a he
    by_contra hed
    rw [update_of_ne hed] at he
    exact hunread.2 e a he
  obtain ⟨l, hl⟩ := h.unread hunread
  constructor
  case link => exact h.link
  case bound => exact h.bound
  case one =>
    intro e f a b he hf
    exact (honly e a he).trans (honly f b hf).symm
  case reading =>
    intro e p he
    cases p with
    | none => exact ⟨[], pending_none _⟩
    | some a =>
        obtain rfl := honly e a he
        have hp : update s.counting e (.resuming s.awaiters) e = .resuming (some a) := he
        rw [update_self] at hp
        rw [← DownPc.resuming.inj hp]
        exact ⟨l, hl.goDown _ _ _⟩
  case unread => exact fun _ => ⟨l, hl.goDown _ _ _⟩

/-- **A resumption** pays off the first awaiter of the one call that has any. -/
theorem Once.resume {s : State} (h : Once s) {d b : ℕ}
    (hd : s.counting d = .resuming (some b)) :
    Once ((s.goDown d (.resuming (s.nextAwaiter b))).resume b) := by
  obtain ⟨l₀, hl₀⟩ := h.reading d (some b) hd
  obtain ⟨l, rfl, hchain⟩ := chain_some.mp hl₀.chain
  obtain ⟨hbl, hnodup⟩ := List.nodup_cons.mp hl₀.nodup
  have hsb : s.awaiting b = .suspended := hl₀.suspended b List.mem_cons_self
  have howed : s.resumptions b < s.suspensions b := hl₀.owed b List.mem_cons_self
  have hne : ∀ c ∈ l, c ≠ b := by
    rintro c hc rfl
    exact hbl hc
  have hothers : ∀ e a, e ≠ d → s.counting e ≠ .resuming (some a) := by
    intro e a hed he
    exact hed (h.one e d a b he hd)
  set s' := (s.goDown d (.resuming (s.nextAwaiter b))).resume b with hs'
  have hawaiting : s'.awaiting = update s.awaiting b .idle := if_pos hsb
  have hresumptions : s'.resumptions = update s.resumptions b (s.resumptions b + 1) := rfl
  have hcounting : s'.counting = update s.counting d (.resuming (s.nextAwaiter b)) := rfl
  have hrest : s'.Pending (s.nextAwaiter b) l := by
    constructor
    case chain => exact hchain
    case nodup => exact hnodup
    case suspended =>
      intro c hc
      show s'.awaiting c = .suspended
      rw [hawaiting, update_of_ne (hne c hc)]
      exact hl₀.suspended c (List.mem_cons_of_mem b hc)
    case owed =>
      intro c hc
      rw [hresumptions, update_of_ne (hne c hc)]
      exact hl₀.owed c (List.mem_cons_of_mem b hc)
  constructor
  case link =>
    intro c oldHead hc
    apply h.link c oldHead
    by_cases hcb : c = b
    · subst hcb
      rw [hawaiting, update_self] at hc
      cases hc
    · rwa [hawaiting, update_of_ne hcb] at hc
  case bound =>
    intro c
    show s'.resumptions c ≤ s.suspensions c
    by_cases hcb : c = b
    · subst hcb
      rw [hresumptions, update_self]
      exact howed
    · rw [hresumptions, update_of_ne hcb]
      exact h.bound c
  case one =>
    have honly : ∀ e a, s'.counting e = .resuming (some a) → e = d := by
      intro e a he
      by_contra hed
      rw [hcounting, update_of_ne hed] at he
      exact hothers e a hed he
    intro e f a c he hf
    exact (honly e a he).trans (honly f c hf).symm
  case reading =>
    intro e p he
    by_cases hed : e = d
    · subst hed
      rw [hcounting, update_self] at he
      obtain rfl := DownPc.resuming.inj he
      exact ⟨l, hrest⟩
    · rw [hcounting, update_of_ne hed] at he
      cases p with
      | none => exact ⟨[], pending_none _⟩
      | some a => exact absurd he (hothers e a hed)
  case unread =>
    rintro ⟨hzero, -⟩
    have hb := hzero b
    rw [hresumptions, update_self] at hb
    cases hb

/-! ## Whole runs -/

theorem awaitStep_once {s s' : State} {a : ℕ} {spurious : Bool} (h : Once s)
    (hs : awaitStep s a spurious = some s') : Once s' := by
  unfold awaitStep at hs
  split at hs
  · cases hs
  · rename_i hpc
    cases hs
    exact h.goAwait_self (by simp [State.Suspended, hpc]) (by intro o; split <;> simp)
  · rename_i hpc
    cases hs
    exact h.goAwait_self (by simp [State.Suspended, hpc]) (by simp)
  · rename_i oldHead hpc
    split at hs
    · cases hs
      exact h.goAwait_self (by simp [State.Suspended, hpc]) (by simp)
    · cases hs
      exact h.goAwait (by simp [State.Suspended, hpc]) (by simp)
  · rename_i oldHead hpc
    split at hs
    · rename_i hcas
      obtain ⟨rfl, rfl⟩ := hcas
      cases hs
      exact h.push hpc
    · cases hs
      exact h.goAwait_self (by simp [State.Suspended, hpc]) (by simp)
  · cases hs

theorem countDownStep_once {s s' : State} {d : ℕ} {spurious : Bool} (h : Once s)
    (hok : FirstRead s (.countDown d spurious))
    (hs : countDownStep s d spurious = some s') : Once s' := by
  unfold countDownStep at hs
  split at hs
  · cases hs
  · rename_i n hpc
    cases hs
    exact h.goDown (by simp [hpc]) (by simp)
  · rename_i n oldCount hpc
    split at hs
    · cases hs
      exact h.goDown (by simp [hpc]) (by simp)
    · split at hs
      · cases hs
        exact h.goDown (by simp [hpc]) (by intro a; split <;> simp)
      · cases hs
        exact h.goDown (by simp [hpc]) (by simp)
  · rename_i hpc
    cases hs
    rcases hok hpc with hempty | hunread
    · rw [hempty]
      exact h.goDown (by simp [hpc]) (by simp)
    · exact h.read hunread
  · rename_i hpc
    cases hs
    exact h.goDown (by simp [hpc]) (by simp)
  · rename_i a hpc
    cases hs
    exact h.resume hpc

theorem step_once {s s' : State} {act : Act} (h : Once s) (hok : FirstRead s act)
    (hs : step s act = some s') : Once s' := by
  cases act with
  | coAwait a =>
      simp only [step] at hs
      split at hs
      · rename_i hpc
        cases hs
        exact h.goAwait (by simp [State.Suspended, hpc]) (by simp)
      · cases hs
  | await a spurious => exact awaitStep_once h hs
  | callCountDown d n =>
      simp only [step] at hs
      split at hs
      · rename_i hpc
        cases hs
        exact h.goDown (by simp [hpc]) (by simp)
      · cases hs
  | countDown d spurious => exact countDownStep_once h hok hs

end Coroutines.AsyncLatch
