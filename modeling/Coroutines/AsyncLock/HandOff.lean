import Coroutines.AsyncLock.Guard

/-!
# No guard hands the lock on

`release` resumes the next awaiter before it returns, so the awaiter's coroutine would run in the
middle of a guard's destructor or move assignment. It never comes to that: the awaiters are on
the word when `release` finds them, and the reversal of that stack does not get past its end.
-/

namespace Coroutines.AsyncLock.Guard

open Transition Function

/-- The awaiters `m` that a `release` has taken off the word, from `current` on: it has not reversed
them yet, and they are none of those on the word. -/
structure Taken (s : AsyncLock.State) (l : List ℕ) (current : ℕ) (m : List ℕ) : Prop where
  stack : Stack s.nextAwaiter current m
  nodup : (m ++ l).Nodup
  suspended : ∀ a ∈ m, s.awaiting a = .suspended

/-- The awaiters that are on the word, and those that a `release` has taken off it and not
reversed yet, are stacks over `LOCKED_NO_WAITERS`. -/
structure Chained (s : AsyncLock.State) : Prop where
  queue : s.awaiters = 0
  noHandOff : ∀ r x, s.releasing r ≠ .handOff x
  links : ∃ l, OnWord s l ∧ ∀ r current head, s.releasing r = .reverse current head →
    current = notLocked ∨ ∃ m, Taken s l current m

theorem initial_chained : Chained AsyncLock.initial where
  queue := rfl
  noHandOff _ _ := nofun
  links := ⟨[], initial_onWord, fun _ _ _ => nofun⟩

section
variable {s : AsyncLock.State} {l m : List ℕ} {current : ℕ}

theorem Taken.notMem (h : Taken s l current m) {a : ℕ} (ha : s.awaiting a ≠ .suspended) : a ∉ m :=
  fun hmem => ha (h.suspended a hmem)

/-- An awaiter that is not suspended moves, and may write its own link. -/
theorem Taken.goAwait (h : Taken s l current m) {a : ℕ} {pc : AwaitPc} (q : ℕ)
    (ha : s.awaiting a ≠ .suspended) :
    Taken ({ s with nextAwaiter := update s.nextAwaiter a q }.goAwait a pc) l current m := by
  have hnot := h.notMem ha
  refine ⟨h.stack.update hnot, h.nodup, fun b hb => ?_⟩
  have hba : b ≠ a := by
    rintro rfl
    exact hnot hb
  exact (update_of_ne hba pc s.awaiting).trans (h.suspended b hb)

theorem Chained.address (h : Chained s) {a : ℕ} (ha : s.awaiting a ≠ .idle) : 1 < a := by
  obtain ⟨l, hword, -⟩ := h.links
  exact hword.address a ha

/-- An awaiter that neither is nor becomes suspended moves, and may write its own link. -/
theorem Chained.goAwait (h : Chained s) {a : ℕ} {pc : AwaitPc} (q : ℕ)
    (ha : s.awaiting a ≠ .suspended) (haddr : pc ≠ .idle → 1 < a) :
    Chained ({ s with nextAwaiter := update s.nextAwaiter a q }.goAwait a pc) := by
  obtain ⟨l, hword, htaken⟩ := h.links
  refine ⟨h.queue, h.noHandOff, l, hword.goAwait q ha haddr, fun r current head hr => ?_⟩
  exact (htaken r current head hr).imp_right fun ⟨m, hm⟩ => ⟨m, hm.goAwait q ha⟩

theorem Chained.goAwait_self (h : Chained s) {a : ℕ} {pc : AwaitPc}
    (ha : s.awaiting a ≠ .suspended) (haddr : pc ≠ .idle → 1 < a) : Chained (s.goAwait a pc) := by
  simpa using h.goAwait (s.nextAwaiter a) ha haddr

/-- The free lock is taken. -/
theorem Chained.lock (h : Chained s) (hfree : s.state = notLocked) (owners : ℕ) :
    Chained { s with state := lockedNoWaiters, owners := owners } := by
  obtain ⟨l, hword, htaken⟩ := h.links
  refine ⟨h.queue, h.noHandOff, l, hword.lock hfree owners, fun r current head hr => ?_⟩
  exact (htaken r current head hr).imp_right fun ⟨m, hm⟩ => ⟨m, hm.stack, hm.nodup, hm.suspended⟩

/-- The word is free again. -/
theorem Chained.unlock (h : Chained s) (hlocked : s.state = lockedNoWaiters) :
    Chained { s with state := notLocked } := by
  obtain ⟨l, hword, htaken⟩ := h.links
  refine ⟨h.queue, h.noHandOff, l, hword.unlock hlocked, fun r current head hr => ?_⟩
  exact (htaken r current head hr).imp_right fun ⟨m, hm⟩ => ⟨m, hm.stack, hm.nodup, hm.suspended⟩

/-- An awaiter is put on the word. -/
theorem Chained.push (h : Chained s) {a : ℕ} (ha : s.awaiting a ≠ .suspended) (haddr : 1 < a)
    (hheld : s.state ≠ notLocked) :
    Chained ({ s with nextAwaiter := update s.nextAwaiter a s.state }.push a) := by
  obtain ⟨l, hword, htaken⟩ := h.links
  refine ⟨h.queue, h.noHandOff, a :: l, hword.push ha haddr hheld, fun r current head hr => ?_⟩
  apply (htaken r current head hr).imp_right
  rintro ⟨m, hm⟩
  have hmove : Taken ({ s with nextAwaiter := update s.nextAwaiter a s.state }.goAwait a .suspended)
      l current m := hm.goAwait s.state ha
  refine ⟨m, hmove.stack, ?_, hmove.suspended⟩
  have hperm : (m ++ a :: l).Perm (a :: (m ++ l)) := List.perm_middle
  rw [hperm.nodup_iff, List.nodup_cons, List.mem_append, not_or]
  exact ⟨⟨hm.notMem ha, hword.notMem ha⟩, hm.nodup⟩

theorem awaitStep_chained {s' : AsyncLock.State} {a : ℕ} {spurious : Bool} (h : Chained s)
    (hs : AsyncLock.awaitStep s a spurious = some s') : Chained s' := by
  cases awaitStep_awaited hs with
  | read hidle hawake => exact h.goAwait_self hawake fun _ => h.address hidle
  | acquire hpc hfree => exact (h.lock hfree _).goAwait_self (by simp [hpc]) (by simp)
  | push hpc hheld => exact h.push (by simp [hpc]) (h.address (by simp [hpc])) hheld
  | link prevState hpc =>
      exact h.goAwait prevState (by simp [hpc]) fun _ => h.address (by simp [hpc])

/-- A call of `release` moves that neither reverses nor comes to reverse a stack. -/
theorem Chained.goRelease (h : Chained s) {r : ℕ} {pc : ReleasePc} (owners : ℕ)
    (hhand : ∀ x, pc ≠ .handOff x) (hrev : ∀ x y, pc ≠ .reverse x y) :
    Chained ({ s with owners := owners }.goRelease r pc) := by
  obtain ⟨l, hword, htaken⟩ := h.links
  refine ⟨h.queue, ?_, l, hword.goRelease r owners pc, fun q current head hq => ?_⟩
  · exact (forall_update_iff s.releasing fun _ p => ∀ x, p ≠ .handOff x).mpr
      ⟨hhand, fun q _ => h.noHandOff q⟩
  · have hq : update s.releasing r pc q = .reverse current head := hq
    by_cases hqr : q = r
    · rw [hqr, update_self] at hq
      exact absurd hq (hrev _ _)
    · rw [update_of_ne hqr] at hq
      apply (htaken q current head hq).imp_right
      exact fun ⟨m, hm⟩ => ⟨m, hm.stack, hm.nodup, hm.suspended⟩

/-- The only call of `release` comes to reverse a stack. -/
theorem Chained.goReverse {r x y : ℕ} (honly : ∀ q, s.releasing q ≠ .idle → q = r)
    (hqueue : s.awaiters = 0) (hhand : ∀ q x, s.releasing q ≠ .handOff x) (hword : OnWord s l)
    (htaken : x = notLocked ∨ ∃ m, Taken s l x m) : Chained (s.goRelease r (.reverse x y)) := by
  refine ⟨hqueue, ?_, l, hword.goRelease r s.owners _, fun q current head hq => ?_⟩
  · exact (forall_update_iff s.releasing fun _ p => ∀ x, p ≠ .handOff x).mpr
      ⟨nofun, fun q _ => hhand q⟩
  · have hq : update s.releasing r (.reverse x y) q = .reverse current head := hq
    by_cases hqr : q = r
    · rw [hqr, update_self] at hq
      cases hq
      exact htaken.imp_right fun ⟨m, hm⟩ => ⟨m, hm.stack, hm.nodup, hm.suspended⟩
    · rw [update_of_ne hqr] at hq
      exact absurd (honly q (by simp [hq])) hqr

/-- **The stack leaves the word**, for the only call of `release` to reverse. -/
theorem Chained.takeStack (h : Chained s) {r : ℕ} (honly : ∀ q, s.releasing q ≠ .idle → q = r) :
    Chained ({ s with state := lockedNoWaiters }.goRelease r (.reverse s.state 0)) := by
  obtain ⟨l, hword, -⟩ := h.links
  refine Chained.goReverse (s := { s with state := lockedNoWaiters }) (l := []) honly h.queue
    h.noHandOff ?_ ?_
  · exact ⟨hword.address, fun a ha => absurd ha List.not_mem_nil, List.nodup_nil, Or.inr rfl⟩
  · refine hword.word.imp And.left fun hstack => ⟨l, hstack, ?_, hword.suspended⟩
    rw [List.append_nil]
    exact hword.nodup

/-- **The reversal goes on past an awaiter**, never to its end: the link of the last one is the
sentinel, which is not null. -/
theorem Chained.reverse (h : Chained s) {r head : ℕ}
    (honly : ∀ q, s.releasing q ≠ .idle → q = r) (hpc : s.releasing r = .reverse current head)
    (hsusp : s.awaiting current = .suspended) :
    s.nextAwaiter current ≠ 0 ∧
      Chained ({ s with nextAwaiter := update s.nextAwaiter current head }.goRelease r
        (.reverse (s.nextAwaiter current) current)) := by
  obtain ⟨l, hword, htaken⟩ := h.links
  have haddr : 1 < current := h.address (by simp [hsusp])
  have hne : current ≠ notLocked := by
    rintro rfl
    exact absurd haddr (by decide)
  obtain ⟨m, hstack, hml, hm⟩ := (htaken r current head hpc).resolve_left hne
  cases m with
  | nil =>
      have hone : current = 1 := hstack
      omega
  | cons a m =>
      obtain ⟨rfl, hstack⟩ := hstack
      have hm' : ∀ b ∈ m, s.awaiting b = .suspended :=
        fun b hb => hm b (List.mem_cons_of_mem _ hb)
      rw [List.cons_append, List.nodup_cons, List.mem_append, not_or] at hml
      refine ⟨hstack.ne_zero (hword.one_lt hm'), ?_⟩
      exact Chained.goReverse (s := { s with nextAwaiter := _ }) honly h.queue h.noHandOff
        (hword.setLink hml.1.2 head) (Or.inr ⟨m, hstack.update hml.1.1, hml.2, hm'⟩)

end

/-- **One step of the only `release`** keeps the stacks, and does not hand the lock over. -/
theorem releaseStep_chained {s s' : AsyncLock.State} {r : ℕ} (h : Chained s)
    (honly : ∀ q, s.releasing q ≠ .idle → q = r) (hs : AsyncLock.releaseStep s r = some s') :
    Chained s' := by
  unfold AsyncLock.releaseStep at hs
  split at hs
  · cases hs
  · cases hs
    rw [if_pos h.queue]
    exact h.goRelease s.owners nofun nofun
  · split at hs
    · rename_i hlocked
      cases hs
      exact (h.unlock hlocked).goRelease s.owners nofun nofun
    · cases hs
      exact h.goRelease s.owners nofun nofun
  · cases hs
    exact h.takeStack honly
  · rename_i current head hpc
    split at hs
    · rename_i hsusp
      obtain ⟨htmp, hnext⟩ := h.reverse honly hpc hsusp
      cases hs
      rw [if_neg htmp]
      exact hnext
    · cases hs
      exact h.goRelease s.owners nofun nofun
  · rename_i x hpc
    exact absurd hpc (h.noHandOff r x)
  · cases hs

theorem step_chained {s s' : State} {act : Act} (hinv : Inv s) (h : Chained s.lock)
    (hs : step s act = some s') : Chained s'.lock := by
  rcases step_refines hinv hs with heq | ⟨act', hs'⟩
  · rw [heq]
    exact h
  · obtain ⟨n, t, hheld⟩ := hinv.held
    cases act' with
    | acquire a =>
        simp only [AsyncLock.step] at hs'
        split at hs'
        · rename_i hguard
          rw [← Option.some.inj hs']
          exact h.goAwait_self (by simp [hguard.2]) fun _ => hguard.1
        · cases hs'
    | await a spurious => exact awaitStep_chained h hs'
    | callRelease r =>
        simp only [AsyncLock.step] at hs'
        split at hs'
        · rw [← Option.some.inj hs']
          exact h.goRelease _ (by simp) (by simp)
        · cases hs'
    | release r =>
        refine releaseStep_chained h (fun q hq => ?_) hs'
        have hr : s.lock.releasing r ≠ .idle := by
          intro hidle
          simp [AsyncLock.step, AsyncLock.releaseStep, hidle] at hs'
        have htokens := (hheld.inside q hq).symm.trans (hheld.inside r hr)
        exact Token.release.inj htokens

/-- **No call of `release` hands the lock over**, so no coroutine runs inside an operation of a
guard. -/
theorem not_handed_over {s : State} (h : system.Reachable s) (r x : ℕ) :
    s.lock.releasing r ≠ .handOff x := by
  have hboth : Inv s ∧ Chained s.lock := by
    apply h.invariant
    · rintro _ rfl
      exact ⟨initial_inv, initial_chained⟩
    · rintro s act s' ⟨hinv, hchained⟩ _ hs
      exact ⟨step_inv hinv hs, step_chained hinv hchained hs⟩
  exact hboth.2.noHandOff r x

end Coroutines.AsyncLock.Guard
