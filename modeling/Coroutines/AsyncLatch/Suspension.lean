import Coroutines.AsyncLatch.Reading
import Mathlib.Data.Set.Finite.Basic

/-!
# Who suspends on a latch

A coroutine suspends on a latch once: whoever is resumed finds the count at zero, and does not pass
the test of the count again. At any time finitely many awaits and calls are in progress.
-/

namespace Coroutines.AsyncLatch

open Transition Function

/-! ## Before the count is zero -/

/-- Nobody reads the list, or has read it. -/
def State.Early (s : State) : Prop :=
  ¬ s.expired → s.Unread ∧ ∀ d, s.counting d ≠ .loadAwaiters

theorem initial_early (count : ℕ) : (initial count).Early :=
  fun _ => ⟨⟨fun _ => rfl, fun _ _ => by simp [initial]⟩, fun _ => by simp [initial]⟩

section
variable {s s' : State}

/-- An await moves. -/
theorem State.Early.await (h : s.Early) (hcount : s'.count = s.count)
    (hcounting : s'.counting = s.counting) (hres : s'.resumptions = s.resumptions) : s'.Early := by
  intro hexp
  rw [State.expired, hcount] at hexp
  rw [State.Unread, hres, hcounting]
  exact h hexp

/-- A call moves on that neither reads the list nor is about to. -/
theorem State.Early.goDown (h : s.Early) {d count : ℕ} {pc : DownPc}
    (hcount : s.expired → count = 0) (hload : pc ≠ .loadAwaiters)
    (hsome : ∀ a, pc ≠ .resuming (some a)) : ({ s with count := count }.goDown d pc).Early := by
  intro hexp
  obtain ⟨⟨hzero, hnone⟩, hnot⟩ := h fun hzero => hexp (hcount hzero)
  have hback : ∀ e x, x ≠ pc → update s.counting d pc e = x → s.counting e = x := by
    intro e x hx he
    by_cases hed : e = d
    · rw [hed, update_self] at he
      exact absurd he.symm hx
    · rwa [update_of_ne hed] at he
  exact ⟨⟨hzero, fun e a he => hnone e a (hback e _ (hsome a).symm he)⟩,
    fun e he => hnot e (hback e _ hload.symm he)⟩

theorem awaitStep_early {a : ℕ} {spurious : Bool} (h : s.Early)
    (hs : awaitStep s a spurious = some s') : s'.Early := by
  unfold awaitStep at hs
  split at hs
  · cases hs
  · cases hs
    exact h.await rfl rfl rfl
  · cases hs
    exact h.await rfl rfl rfl
  · split at hs <;> cases hs <;> exact h.await rfl rfl rfl
  · split at hs <;> cases hs <;> exact h.await rfl rfl rfl
  · cases hs

theorem countDownStep_early {d : ℕ} {spurious : Bool} (h : s.Early)
    (hs : countDownStep s d spurious = some s') : s'.Early := by
  unfold countDownStep at hs
  split at hs
  · cases hs
  · cases hs
    exact h.goDown id (by simp) (by simp)
  · rename_i n oldCount hpc
    split at hs
    · cases hs
      exact h.goDown id (by simp) (by simp)
    · split at hs
      · rename_i hcas
        cases hs
        by_cases hzero : oldCount - n = 0
        · -- this call takes the count to zero
          exact fun hexp => absurd hzero hexp
        · rw [if_neg hzero]
          refine h.goDown (fun hexp => ?_) (by simp) (by simp)
          rw [← hcas.1, show s.count = 0 from hexp, Nat.zero_sub]
      · cases hs
        exact h.goDown id (by simp) (by simp)
  · rename_i hpc
    cases hs
    exact fun hexp => absurd hpc ((h hexp).2 d)
  · cases hs
    exact h.goDown id (by simp) (by simp)
  · rename_i a hpc
    cases hs
    exact fun hexp => absurd hpc ((h hexp).1.2 d a)

theorem step_early {act : Act} (h : s.Early) (hs : step s act = some s') : s'.Early := by
  cases act with
  | coAwait a =>
      obtain ⟨-, heq⟩ := Option.ite_none_right_eq_some.mp hs
      rw [← Option.some.inj heq]
      exact h.await rfl rfl rfl
  | await a spurious => exact awaitStep_early h hs
  | callCountDown d n =>
      obtain ⟨-, heq⟩ := Option.ite_none_right_eq_some.mp hs
      rw [← Option.some.inj heq]
      exact h.goDown id (by simp) (by simp)
  | countDown d spurious => exact countDownStep_early h hs

end

/-! ## Nobody suspends twice -/

/-- Nobody suspends twice: who is resumed finds the latch expired. -/
structure SuspendedOnce (s : State) : Prop where
  early : ¬ s.expired → ∀ a, ¬ s.Suspended a → s.suspensions a = 0
  pushing : ∀ a oldHead, s.awaiting a = .exchange oldHead → s.suspensions a = 0
  bound : ∀ a, s.suspensions a ≤ 1

theorem initial_suspendedOnce (count : ℕ) : SuspendedOnce (initial count) where
  early _ _ _ := rfl
  pushing _ _ _ := rfl
  bound _ := Nat.zero_le 1

theorem SuspendedOnce.goAwait {s : State} (h : SuspendedOnce s) {a : ℕ} {pc : AwaitPc}
    (q : Option ℕ) (ha : ¬ s.Suspended a)
    (hpc : ∀ oldHead, pc = .exchange oldHead → ¬ s.expired) :
    SuspendedOnce ({ s with nextAwaiter := update s.nextAwaiter a q }.goAwait a pc) := by
  constructor
  case early =>
    intro hexp b hb
    refine h.early hexp b fun hsusp => ?_
    have hba : b ≠ a := by
      rintro rfl
      exact ha hsusp
    exact hb ((update_of_ne hba _ _).trans hsusp)
  case pushing =>
    intro b oldHead hb
    have hb : update s.awaiting a pc b = .exchange oldHead := hb
    by_cases hba : b = a
    · subst hba
      rw [update_self] at hb
      exact h.early (hpc oldHead hb) b ha
    · rw [update_of_ne hba] at hb
      exact h.pushing b oldHead hb
  case bound => exact h.bound

theorem SuspendedOnce.goAwait_self {s : State} (h : SuspendedOnce s) {a : ℕ} {pc : AwaitPc}
    (ha : ¬ s.Suspended a) (hpc : ∀ oldHead, pc ≠ .exchange oldHead) :
    SuspendedOnce (s.goAwait a pc) := by
  have hself := h.goAwait (s.nextAwaiter a) ha fun o ho => absurd ho (hpc o)
  rwa [update_eq_self] at hself

theorem SuspendedOnce.push {s : State} (h : SuspendedOnce s) {a : ℕ}
    (ha : s.awaiting a = .exchange s.awaiters) : SuspendedOnce (s.push a) := by
  have hone : (s.push a).suspensions a = 1 := by
    show update s.suspensions a (s.suspensions a + 1) a = 1
    rw [update_self, h.pushing a _ ha]
  have hother : ∀ b, b ≠ a → (s.push a).suspensions b = s.suspensions b ∧
      (s.push a).awaiting b = s.awaiting b :=
    fun b hb => ⟨update_of_ne hb _ _, update_of_ne hb _ _⟩
  have hself : (s.push a).Suspended a := update_self _ _ _
  constructor
  case early =>
    intro hexp b hb
    have hba : b ≠ a := by
      rintro rfl
      exact hb hself
    obtain ⟨hsuspensions, hawaiting⟩ := hother b hba
    rw [State.Suspended, hawaiting] at hb
    rw [hsuspensions]
    exact h.early hexp b hb
  case pushing =>
    intro b oldHead hb
    have hba : b ≠ a := by
      rintro rfl
      exact AwaitPc.noConfusion (hself.symm.trans hb)
    obtain ⟨hsuspensions, hawaiting⟩ := hother b hba
    rw [hawaiting] at hb
    rw [hsuspensions]
    exact h.pushing b oldHead hb
  case bound =>
    intro b
    by_cases hba : b = a
    · rw [hba, hone]
    · rw [(hother b hba).1]
      exact h.bound b

/-- The count drops at most. -/
theorem SuspendedOnce.goDown {s : State} (h : SuspendedOnce s) {d count : ℕ} {pc : DownPc}
    (hcount : s.expired → count = 0) :
    SuspendedOnce ({ s with count := count }.goDown d pc) where
  early hexp := h.early fun hzero => hexp (hcount hzero)
  pushing := h.pushing
  bound := h.bound

theorem SuspendedOnce.resume {s : State} (h : SuspendedOnce s) {d a : ℕ} {pc : DownPc}
    (hexp : s.expired) : SuspendedOnce ((s.goDown d pc).resume a) := by
  constructor
  case early => exact fun hnot => absurd hexp hnot
  case pushing =>
    intro b oldHead hb
    have hb : (if s.awaiting a = .suspended then update s.awaiting a .idle else s.awaiting) b =
      .exchange oldHead := hb
    split at hb
    · by_cases hba : b = a
      · rw [hba, update_self] at hb
        cases hb
      · rw [update_of_ne hba] at hb
        exact h.pushing b oldHead hb
    · exact h.pushing b oldHead hb
  case bound => exact h.bound

theorem awaitStep_suspendedOnce {s s' : State} {a : ℕ} {spurious : Bool} (h : SuspendedOnce s)
    (hs : awaitStep s a spurious = some s') : SuspendedOnce s' := by
  unfold awaitStep at hs
  split at hs
  · cases hs
  · rename_i hpc
    cases hs
    exact h.goAwait_self (by simp [State.Suspended, hpc]) (by intro o; split <;> simp)
  · rename_i hpc
    cases hs
    exact h.goAwait_self (by simp [State.Suspended, hpc]) (by simp)
  · rename_i oldHead hpc
    split at hs
    · cases hs
      exact h.goAwait_self (by simp [State.Suspended, hpc]) (by simp)
    · rename_i hexp
      cases hs
      exact h.goAwait _ (by simp [State.Suspended, hpc]) fun _ _ => hexp
  · rename_i oldHead hpc
    split at hs
    · rename_i hcas
      obtain ⟨rfl, -⟩ := hcas
      cases hs
      exact h.push hpc
    · cases hs
      exact h.goAwait_self (by simp [State.Suspended, hpc]) (by simp)
  · cases hs

theorem countDownStep_suspendedOnce {s s' : State} {d : ℕ} {spurious : Bool} (h : SuspendedOnce s)
    (hearly : s.Early) (hs : countDownStep s d spurious = some s') : SuspendedOnce s' := by
  unfold countDownStep at hs
  split at hs
  · cases hs
  · cases hs
    exact h.goDown id
  · split at hs
    · cases hs
      exact h.goDown id
    · split at hs
      · rename_i hcas
        cases hs
        refine h.goDown fun hexp => ?_
        rw [← hcas.1, show s.count = 0 from hexp, Nat.zero_sub]
      · cases hs
        exact h.goDown id
  · cases hs
    exact h.goDown id
  · cases hs
    exact h.goDown id
  · rename_i a hpc
    cases hs
    apply h.resume
    by_contra hexp
    exact (hearly hexp).1.2 d a hpc

theorem step_suspendedOnce {s s' : State} {act : Act} (h : SuspendedOnce s) (hearly : s.Early)
    (hs : step s act = some s') : SuspendedOnce s' := by
  cases act with
  | coAwait a =>
      simp only [step] at hs
      split at hs
      · rename_i hpc
        cases hs
        exact h.goAwait none (by simp [State.Suspended, hpc]) (by simp)
      · cases hs
  | await a spurious => exact awaitStep_suspendedOnce h hs
  | callCountDown d n =>
      simp only [step] at hs
      split at hs
      · cases hs
        exact h.goDown id
      · cases hs
  | countDown d spurious => exact countDownStep_suspendedOnce h hearly hs

theorem reachable_suspendedOnce {s : State} (h : system.Reachable s) : SuspendedOnce s := by
  have hboth : s.Early ∧ SuspendedOnce s := by
    refine h.invariant (I := fun s => s.Early ∧ SuspendedOnce s) ?_ ?_
    · rintro _ ⟨count, -, rfl⟩
      exact ⟨initial_early count, initial_suspendedOnce count⟩
    · rintro s act s' ⟨hearly, hsus⟩ - hs
      exact ⟨step_early hearly hs, step_suspendedOnce hsus hearly hs⟩
  exact hboth.2

/-! ## Finitely many parties -/

/-- A step moves one await and one call of `count_down` at most. -/
theorem step_moves {s s' : State} {act : Act} (hs : step s act = some s') :
    (∃ a, ∀ b, b ≠ a → s'.awaiting b = s.awaiting b) ∧
      ∃ d, ∀ e, e ≠ d → s'.counting e = s.counting e := by
  cases act with
  | coAwait a =>
      obtain ⟨-, heq⟩ := Option.ite_none_right_eq_some.mp hs
      rw [← Option.some.inj heq]
      exact ⟨⟨a, fun b hb => update_of_ne hb _ _⟩, 0, fun _ _ => rfl⟩
  | await a spurious =>
      have hgo : ∀ pc, ∃ a', ∀ b, b ≠ a' → update s.awaiting a pc b = s.awaiting b :=
        fun pc => ⟨a, fun b hb => update_of_ne hb _ _⟩
      simp only [step, awaitStep] at hs
      split at hs
      · cases hs
      · cases hs
        exact ⟨hgo _, 0, fun _ _ => rfl⟩
      · cases hs
        exact ⟨hgo _, 0, fun _ _ => rfl⟩
      · split at hs <;> cases hs <;> exact ⟨hgo _, 0, fun _ _ => rfl⟩
      · split at hs <;> cases hs <;> exact ⟨hgo _, 0, fun _ _ => rfl⟩
      · cases hs
  | callCountDown d n =>
      obtain ⟨-, heq⟩ := Option.ite_none_right_eq_some.mp hs
      rw [← Option.some.inj heq]
      exact ⟨⟨0, fun _ _ => rfl⟩, d, fun e he => update_of_ne he _ _⟩
  | countDown d spurious =>
      have hgo : ∀ pc, ∃ d', ∀ e, e ≠ d' → update s.counting d pc e = s.counting e :=
        fun pc => ⟨d, fun e he => update_of_ne he _ _⟩
      simp only [step, countDownStep] at hs
      split at hs
      · cases hs
      · cases hs
        exact ⟨⟨0, fun _ _ => rfl⟩, hgo _⟩
      · split at hs
        · cases hs
          exact ⟨⟨0, fun _ _ => rfl⟩, hgo _⟩
        · split at hs <;> cases hs <;> exact ⟨⟨0, fun _ _ => rfl⟩, hgo _⟩
      · cases hs
        exact ⟨⟨0, fun _ _ => rfl⟩, hgo _⟩
      · cases hs
        exact ⟨⟨0, fun _ _ => rfl⟩, hgo _⟩
      · rename_i a _
        cases hs
        refine ⟨⟨a, fun b hb => ?_⟩, hgo _⟩
        show (if s.awaiting a = .suspended then update s.awaiting a .idle else s.awaiting) b = _
        split
        · exact update_of_ne hb _ _
        · rfl

theorem finite_of_moves {β : Type} {f g : ℕ → β} {x : β} (h : {i | f i ≠ x}.Finite)
    (hmoves : ∃ a, ∀ b, b ≠ a → g b = f b) : {i | g i ≠ x}.Finite := by
  obtain ⟨a, ha⟩ := hmoves
  refine (h.insert a).subset fun b hb => ?_
  by_cases hba : b = a
  · exact Or.inl hba
  · exact Or.inr ((ha b hba).symm.trans_ne hb)

/-- Finitely many awaits and calls are in progress. -/
theorem reachable_finite {s : State} (h : system.Reachable s) :
    {a | s.awaiting a ≠ .idle}.Finite ∧ {d | s.counting d ≠ .idle}.Finite := by
  refine h.invariant (I := fun s => {a | s.awaiting a ≠ .idle}.Finite ∧
    {d | s.counting d ≠ .idle}.Finite) ?_ ?_
  · rintro _ ⟨count, -, rfl⟩
    exact ⟨Set.finite_empty.subset fun a ha => ha rfl, Set.finite_empty.subset fun d hd => hd rfl⟩
  · rintro s act s' ⟨hawaiting, hcounting⟩ - hs
    obtain ⟨ha, hd⟩ := step_moves hs
    exact ⟨finite_of_moves hawaiting ha, finite_of_moves hcounting hd⟩

end Coroutines.AsyncLatch
