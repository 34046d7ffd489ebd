import Coroutines.AsyncLock
import Mathlib.Data.List.Range

/-!
# The guards of the asynchronous lock

`await_resume` gives the coroutine an `async_lock_guard`. The guard calls `release` when it is
destroyed, or when another guard is moved into it; a guard that was moved from has a null
pointer and calls nothing.

Each acquisition carries its number here, and a pointer that is not null stands for the
acquisition that its guard was made for. A guard is a plain object: while one of its operations
runs, no other one of the same guard does.
-/

namespace Coroutines.AsyncLock.Guard

open Transition Function

/-! ## The model -/

/-- Where the guard object at one address stands. -/
inductive GuardPc
  | absent
  | alive (lock : Option ℕ)
  | destroying (acquisition : ℕ)       -- in `release`, called by the destructor
  | assigning (acquisition alg : ℕ)    -- in `release`, called by the move assignment
  | taking (alg : ℕ)                   -- before `lock = alg.lock`
deriving DecidableEq

structure State where
  lock : AsyncLock.State
  /-- The acquisition of an awaiter that was granted the lock, before `await_resume`. -/
  granted : ℕ → Option ℕ
  guards : ℕ → GuardPc
  /-- History: how many acquisitions were granted, which of them were given to a call of
  `release`, and which are released. -/
  acquisitions : ℕ
  calls : List ℕ
  released : List ℕ

/-- What moves next. -/
inductive Act
  | acquire (a : ℕ)
  | await (a : ℕ) (spurious : Bool)
  | awaitResume (a g : ℕ)
  | moveConstruct (g alg : ℕ)
  | moveAssign (g alg : ℕ)
  | take (g : ℕ)
  | destroy (g : ℕ)
  | release (g : ℕ)
deriving DecidableEq

def initial : State where
  lock := AsyncLock.initial
  granted := fun _ => none
  guards := fun _ => .absent
  acquisitions := 0
  calls := []
  released := []

def State.goGuard (s : State) (g : ℕ) (pc : GuardPc) : State :=
  { s with guards := update s.guards g pc }

/-- The awaiter has acquired the lock. -/
def State.grant (s : State) (a : ℕ) : State :=
  { s with
    granted := update s.granted a (some s.acquisitions)
    acquisitions := s.acquisitions + 1 }

/-- The guard calls `lock->release()`. -/
def State.callRelease (s : State) (g acquisition : ℕ) (pc : GuardPc) : State :=
  { s with
    lock := { s.lock with owners := s.lock.owners - 1 }.goRelease g .readAwaiters
    calls := s.calls ++ [acquisition] }.goGuard g pc

/-- The call of `release` has returned to the guard. -/
def State.finish (s : State) (g : ℕ) : State :=
  match s.guards g with
  | .destroying acquisition =>
      { s with released := s.released ++ [acquisition] }.goGuard g .absent
  | .assigning acquisition alg =>
      { s with released := s.released ++ [acquisition] }.goGuard g (.taking alg)
  | _ => s

/-- One step of `await_suspend`. When it returns false, the lock is acquired. -/
def awaitStep (s : State) (a : ℕ) (spurious : Bool) : Option State :=
  (AsyncLock.awaitStep s.lock a spurious).map fun lock =>
    if lock.awaiting a = .idle then { s with lock := lock }.grant a else { s with lock := lock }

/-- One step of the `release` that the guard has called. -/
def releaseStep (s : State) (g : ℕ) : Option State :=
  (AsyncLock.releaseStep s.lock g).map fun lock =>
    match s.lock.releasing g, lock.releasing g with
    | .handOff awaitersHead, .idle => ({ s with lock := lock }.finish g).grant awaitersHead
    | _, .idle => { s with lock := lock }.finish g
    | _, _ => { s with lock := lock }

def step (s : State) : Act → Option State
  | .acquire a =>
      if 1 < a ∧ s.lock.awaiting a = .idle ∧ s.granted a = none then
        some { s with lock := s.lock.goAwait a .load }
      else none
  | .await a spurious => awaitStep s a spurious
  | .awaitResume a g =>
      match s.granted a, s.guards g with
      | some acquisition, .absent =>
          some ({ s with granted := update s.granted a none }.goGuard g (.alive (some acquisition)))
      | _, _ => none
  | .moveConstruct g alg =>
      match s.guards g, s.guards alg with
      | .absent, .alive lock => some ((s.goGuard g (.alive lock)).goGuard alg (.alive none))
      | _, _ => none
  | .moveAssign g alg =>
      match s.guards g, s.guards alg with
      | .alive lock, .alive _ =>
          if alg = g then some s
          else match lock with
            | some acquisition => some (s.callRelease g acquisition (.assigning acquisition alg))
            | none => some (s.goGuard g (.taking alg))
      | _, _ => none
  | .take g =>
      match s.guards g with
      | .taking alg =>
          match s.guards alg with
          | .alive lock => some ((s.goGuard g (.alive lock)).goGuard alg (.alive none))
          | _ => none
      | _ => none
  | .destroy g =>
      match s.guards g with
      | .alive (some acquisition) => some (s.callRelease g acquisition (.destroying acquisition))
      | .alive none => some (s.goGuard g .absent)
      | _ => none
  | .release g => releaseStep s g

def system : System State Act where
  Init s := s = initial
  step := step

/-! ## What the lock owes its owners -/

/-- The acquisition was granted and is not released. -/
def State.Outstanding (s : State) (acquisition : ℕ) : Prop :=
  acquisition < s.acquisitions ∧ acquisition ∉ s.released

/-- At most one acquisition is outstanding, the lock is free exactly when none is, and none is
given to two calls of `release` or released twice. -/
structure State.Exclusive (s : State) : Prop where
  one : ∀ i j, s.Outstanding i → s.Outstanding j → i = j
  free : s.lock.state = notLocked ↔ ∀ i, ¬ s.Outstanding i
  once : s.calls.Nodup ∧ s.released.Nodup

/-! ## The acquisition as a token

There is one token, and it is with the lock, with an awaiter, with a guard or with a call of
`release`. -/

inductive Token
  | lock
  | awaiter (a : ℕ)
  | guard (g : ℕ)
  | release (g : ℕ)
deriving DecidableEq

/-- One while an acquisition is outstanding. -/
def Token.outstanding : Token → ℕ
  | .lock => 0
  | _ => 1

/-- One while it is given to a call of `release`. -/
def Token.called : Token → ℕ
  | .release _ => 1
  | _ => 0

/-- The call of `release` that the guard is in. -/
def GuardPc.releasing : GuardPc → Option ℕ
  | .destroying acquisition | .assigning acquisition _ => some acquisition
  | _ => none

/-- The token is where `t` says, and the `n` acquisitions before this one are released. -/
structure Placed (s : State) (n : ℕ) (t : Token) : Prop where
  granted : ∀ a i, s.granted a = some i ↔ t = .awaiter a ∧ i = n
  alive : ∀ g i, s.guards g = .alive (some i) ↔ t = .guard g ∧ i = n
  releasing : ∀ g i, (s.guards g).releasing = some i ↔ t = .release g ∧ i = n
  acquisitions : s.acquisitions = n + t.outstanding
  calls : s.calls = List.range (n + t.called)
  released : s.released = List.range n

/-- The lock agrees: its word is free when it has the token, and no other `release` runs. -/
structure Held (s : State) (n : ℕ) (t : Token) : Prop extends Placed s n t where
  word : s.lock.state = notLocked ↔ t = .lock
  inside : ∀ r, s.lock.releasing r ≠ .idle → t = .release r
  owners : s.lock.owners + t.called = t.outstanding

structure Inv (s : State) : Prop where
  held : ∃ n t, Held s n t
  address : ∀ a, s.lock.awaiting a ≠ .idle → 1 < a

theorem initial_inv : Inv initial where
  held := by
    refine ⟨0, .lock, ⟨?_, ?_, ?_, rfl, rfl, rfl⟩, ?_, ?_, rfl⟩ <;>
      simp [initial, AsyncLock.initial, GuardPc.releasing]
  address a h := absurd rfl h

theorem Placed.outstanding_iff {s : State} {n : ℕ} {t : Token} (h : Placed s n t) (i : ℕ) :
    s.Outstanding i ↔ t ≠ .lock ∧ i = n := by
  unfold State.Outstanding
  rw [h.acquisitions, h.released, List.mem_range]
  cases t with
  | lock =>
      simp only [Token.outstanding, ne_eq, not_true, false_and, iff_false]
      omega
  | awaiter | guard | release =>
      simp only [Token.outstanding, ne_eq, reduceCtorEq, not_false_eq_true, true_and]
      omega

theorem Held.excludes {s : State} {n : ℕ} {t : Token} (h : Held s n t) : s.Exclusive where
  one i j hi hj := by
    rw [((h.outstanding_iff i).mp hi).2, ((h.outstanding_iff j).mp hj).2]
  free := by
    rw [h.word]
    constructor
    · intro ht i hi
      exact ((h.outstanding_iff i).mp hi).1 ht
    · intro hnone
      by_contra ht
      exact hnone n ((h.outstanding_iff n).mpr ⟨ht, rfl⟩)
  once := by
    rw [h.calls, h.released]
    exact ⟨List.nodup_range, List.nodup_range⟩

/-! ## How the token moves -/

/-- What happens to the lock does not move the token. -/
theorem Placed.withLock {s : State} {n : ℕ} {t : Token} (h : Placed s n t)
    (lock : AsyncLock.State) : Placed { s with lock := lock } n t :=
  ⟨h.granted, h.alive, h.releasing, h.acquisitions, h.calls, h.released⟩

theorem Placed.grant {s : State} {n : ℕ} (h : Placed s n .lock) (a : ℕ) :
    Placed (s.grant a) n (.awaiter a) where
  granted b i := by
    have hb := h.granted b i
    have hn : s.acquisitions = n := h.acquisitions
    simp only [State.grant, update_apply, hn]
    grind
  alive g i := by
    have hg := h.alive g i
    simp only [State.grant]
    grind
  releasing g i := by
    have hg := h.releasing g i
    simp only [State.grant]
    grind
  acquisitions := by
    rw [State.grant, h.acquisitions]
    rfl
  calls := h.calls
  released := h.released

/-- A guard is made for the acquisition. -/
theorem Placed.awaitResume {s : State} {n a g : ℕ} (h : Placed s n (.awaiter a)) :
    Placed ({ s with granted := update s.granted a none }.goGuard g (.alive (some n))) n
      (.guard g) where
  granted b i := by
    have hb := h.granted b i
    simp only [State.goGuard, update_apply]
    grind
  alive g' i := by
    have hg' := h.alive g' i
    simp only [State.goGuard, update_apply]
    grind
  releasing g' i := by
    have hg' := h.releasing g' i
    simp only [State.goGuard, update_apply]
    grind [GuardPc.releasing]
  acquisitions := h.acquisitions
  calls := h.calls
  released := h.released

/-- A guard moves that neither has nor gets the token. -/
theorem Placed.goGuard {s : State} {n g : ℕ} {t : Token} {pc : GuardPc} (h : Placed s n t)
    (hg : t ≠ .guard g) (hr : t ≠ .release g) (hpc : ∀ i, pc ≠ .alive (some i))
    (hrel : pc.releasing = none) : Placed (s.goGuard g pc) n t where
  granted := h.granted
  alive g' i := by
    have hg' := h.alive g' i
    simp only [State.goGuard, update_apply]
    grind
  releasing g' i := by
    have hg' := h.releasing g' i
    simp only [State.goGuard, update_apply]
    grind
  acquisitions := h.acquisitions
  calls := h.calls
  released := h.released

/-- **A move** takes the token from the guard `alg` to the guard `g`. -/
theorem Placed.move {s : State} {n g alg : ℕ} (h : Placed s n (.guard alg)) (hne : g ≠ alg) :
    Placed ((s.goGuard g (.alive (some n))).goGuard alg (.alive none)) n (.guard g) where
  granted a i := by
    have ha := h.granted a i
    simp only [State.goGuard]
    grind
  alive g' i := by
    have hg' := h.alive g' i
    simp only [State.goGuard, update_apply]
    grind
  releasing g' i := by
    have hg' := h.releasing g' i
    simp only [State.goGuard, update_apply]
    grind [GuardPc.releasing]
  acquisitions := h.acquisitions
  calls := h.calls
  released := h.released

/-- A guard that is alive has the token or a null pointer. -/
theorem Placed.eq_of_alive {s : State} {n g i : ℕ} {t : Token} (h : Placed s n t)
    (hg : s.guards g = .alive (some i)) : t = .guard g ∧ i = n :=
  (h.alive g i).mp hg

theorem Placed.ne_guard {s : State} {n g : ℕ} {t : Token} (h : Placed s n t)
    (hg : ∀ i, s.guards g ≠ .alive (some i)) : t ≠ .guard g := by
  intro ht
  exact hg n ((h.alive g n).mpr ⟨ht, rfl⟩)

theorem Placed.ne_release {s : State} {n g : ℕ} {t : Token} (h : Placed s n t)
    (hg : (s.guards g).releasing = none) : t ≠ .release g := by
  intro ht
  rw [(h.releasing g n).mpr ⟨ht, rfl⟩] at hg
  cases hg

/-- The guard gives the token to a call of `release`. -/
theorem Placed.callRelease {s : State} {n g : ℕ} {pc : GuardPc} (h : Placed s n (.guard g))
    (hrel : pc.releasing = some n) : Placed (s.callRelease g n pc) n (.release g) where
  granted a i := by
    have ha := h.granted a i
    simp only [State.callRelease, State.goGuard]
    grind
  alive g' i := by
    have hg' := h.alive g' i
    simp only [State.callRelease, State.goGuard, update_apply]
    grind [GuardPc.releasing]
  releasing g' i := by
    have hg' := h.releasing g' i
    simp only [State.callRelease, State.goGuard, update_apply]
    grind
  acquisitions := h.acquisitions
  calls := by
    show s.calls ++ [n] = List.range (n + 1)
    rw [h.calls]
    exact List.range_succ.symm
  released := h.released

/-- The call of `release` returns, and the lock has the token. -/
theorem Placed.finish {s : State} {n g : ℕ} (h : Placed s n (.release g)) :
    Placed (s.finish g) (n + 1) .lock := by
  have hrel := (h.releasing g n).mpr ⟨rfl, rfl⟩
  have hfinish : ∃ pc, s.finish g = { s with released := s.released ++ [n] }.goGuard g pc ∧
      (∀ i, pc ≠ .alive (some i)) ∧ pc.releasing = none := by
    unfold State.finish
    split
    · rename_i acquisition hg
      rw [hg] at hrel
      cases hrel
      exact ⟨_, rfl, nofun, rfl⟩
    · rename_i acquisition alg hg
      rw [hg] at hrel
      cases hrel
      exact ⟨_, rfl, nofun, rfl⟩
    · rename_i hd ha
      exfalso
      cases hg : s.guards g with
      | destroying i => exact hd i hg
      | assigning i alg => exact ha i alg hg
      | absent | alive | taking =>
          rw [hg] at hrel
          cases hrel
  obtain ⟨pc, heq, hpc, hnone⟩ := hfinish
  rw [heq]
  constructor
  case granted =>
    intro a i
    have ha := h.granted a i
    simp only [State.goGuard]
    grind
  case alive =>
    intro g' i
    have hg' := h.alive g' i
    simp only [State.goGuard, update_apply]
    grind
  case releasing =>
    intro g' i
    have hg' := h.releasing g' i
    simp only [State.goGuard, update_apply]
    grind
  case acquisitions => exact h.acquisitions
  case calls => exact h.calls
  case released =>
    show s.released ++ [n] = List.range (n + 1)
    rw [h.released]
    exact List.range_succ.symm

/-! ## What the lock does in a step -/

/-- One step of `await_suspend` acquires a free lock, or leaves the word as free as it was. -/
theorem awaitStep_spec {s s' : AsyncLock.State} {a : ℕ} {spurious : Bool}
    (hs : AsyncLock.awaitStep s a spurious = some s') (ha : 1 < a) :
    s'.releasing = s.releasing ∧ (∀ b ≠ a, s'.awaiting b = s.awaiting b) ∧
      (s'.awaiting a = .idle ∧ s.state = notLocked ∧ s'.state ≠ notLocked ∧
          s'.owners = s.owners + 1 ∨
        s'.awaiting a ≠ .idle ∧ (s'.state = notLocked ↔ s.state = notLocked) ∧
          s'.owners = s.owners) := by
  cases awaitStep_awaited hs with
  | read _ _ =>
      refine ⟨rfl, fun b hb => update_of_ne hb _ _, Or.inr ⟨?_, Iff.rfl, rfl⟩⟩
      simp [AsyncLock.State.goAwait]
  | acquire _ hfree =>
      refine ⟨rfl, fun b hb => update_of_ne hb _ _, Or.inl ⟨?_, hfree, ?_, rfl⟩⟩
      · simp [AsyncLock.State.goAwait]
      · exact fun hzero => absurd hzero (by decide : lockedNoWaiters ≠ notLocked)
  | push _ hheld =>
      refine ⟨rfl, fun b hb => update_of_ne hb _ _, Or.inr ⟨?_, ?_, rfl⟩⟩
      · simp [AsyncLock.State.push]
      · refine iff_of_false (fun hzero => ?_) hheld
        have hzero : a = 0 := hzero
        omega
  | link _ _ =>
      refine ⟨rfl, fun b hb => update_of_ne hb _ _, Or.inr ⟨?_, Iff.rfl, rfl⟩⟩
      simp [AsyncLock.State.goAwait]

/-- How one step of `release` leaves the lock. -/
inductive Released (s s' : AsyncLock.State) (r : ℕ) : Prop
  | unlocked (hpc : s.releasing r = .tryUnlock) (hreturned : s'.releasing r = .idle)
      (hstate : s'.state = notLocked) (howners : s'.owners = s.owners)
      (hawaiting : s'.awaiting = s.awaiting)
  | handedOff {a : ℕ} (hpc : s.releasing r = .handOff a) (hreturned : s'.releasing r = .idle)
      (hstate : s'.state = s.state) (howners : s'.owners = s.owners + 1)
      (hawaiting : s'.awaiting = update s.awaiting a .idle)
  | goesOn (hpc : s.releasing r ≠ .idle) (hinside : s'.releasing r ≠ .idle)
      (hstate : s.state ≠ notLocked → s'.state ≠ notLocked) (howners : s'.owners = s.owners)
      (hawaiting : s'.awaiting = s.awaiting)

theorem releaseStep_released {s s' : AsyncLock.State} {r : ℕ}
    (hs : AsyncLock.releaseStep s r = some s') :
    (∀ q ≠ r, s'.releasing q = s.releasing q) ∧ Released s s' r := by
  unfold AsyncLock.releaseStep at hs
  split at hs
  · cases hs
  · rename_i hpc
    cases hs
    refine ⟨fun q hq => update_of_ne hq _ _, .goesOn (by simp [hpc]) ?_ id rfl rfl⟩
    simp only [AsyncLock.State.goRelease, update_self]
    split <;> simp
  · rename_i hpc
    split at hs
    · cases hs
      exact ⟨fun q hq => update_of_ne hq _ _, .unlocked hpc (update_self _ _ _) rfl rfl rfl⟩
    · cases hs
      refine ⟨fun q hq => update_of_ne hq _ _, .goesOn (by simp [hpc]) ?_ id rfl rfl⟩
      simp [AsyncLock.State.goRelease]
  · rename_i hpc
    cases hs
    refine ⟨fun q hq => update_of_ne hq _ _, .goesOn (by simp [hpc]) ?_ ?_ rfl rfl⟩
    · simp [AsyncLock.State.goRelease]
    · exact fun _ => by simp [AsyncLock.State.goRelease, lockedNoWaiters, notLocked]
  · rename_i currentAwaiter awaitersHead hpc
    split at hs
    · cases hs
      refine ⟨fun q hq => update_of_ne hq _ _, .goesOn (by simp [hpc]) ?_ id rfl rfl⟩
      simp only [AsyncLock.State.goRelease, update_self]
      split <;> simp
    · cases hs
      refine ⟨fun q hq => update_of_ne hq _ _, .goesOn (by simp [hpc]) ?_ id rfl rfl⟩
      simp [AsyncLock.State.goRelease]
  · rename_i awaitersHead hpc
    split at hs
    · cases hs
      exact ⟨fun q hq => update_of_ne hq _ _,
        .handedOff hpc (update_self _ _ _) rfl rfl rfl⟩
    · cases hs
      refine ⟨fun q hq => update_of_ne hq _ _, .goesOn (by simp [hpc]) ?_ id rfl rfl⟩
      simp [AsyncLock.State.goRelease]
  · cases hs

/-! ## What each step keeps -/

theorem Held.inv {s : State} {n : ℕ} {t : Token} (h : Held s n t)
    (haddr : ∀ a, s.lock.awaiting a ≠ .idle → 1 < a) : Inv s where
  held := ⟨n, t, h⟩
  address := haddr

@[simp] theorem State.grant_lock (s : State) (a : ℕ) : (s.grant a).lock = s.lock := rfl

@[simp] theorem State.finish_lock (s : State) (g : ℕ) : (s.finish g).lock = s.lock := by
  unfold State.finish
  split <;> rfl

theorem awaitStep_inv {s s' : State} {a : ℕ} {spurious : Bool} (h : Inv s)
    (hs : awaitStep s a spurious = some s') : Inv s' := by
  obtain ⟨n, t, hheld⟩ := h.held
  obtain ⟨lock, hlock, rfl⟩ := Option.map_eq_some_iff.mp hs
  have ha : 1 < a := by
    apply h.address
    intro hidle
    simp [AsyncLock.awaitStep, hidle] at hlock
  obtain ⟨hreleasing, hothers, hcases⟩ := awaitStep_spec hlock ha
  have haddr : ∀ b, lock.awaiting b ≠ .idle → 1 < b := by
    intro b hb
    by_cases hba : b = a
    · rw [hba]
      exact ha
    · rw [hothers b hba] at hb
      exact h.address b hb
  have hinside : ∀ r, lock.releasing r ≠ .idle → t = .release r := by
    rw [hreleasing]
    exact hheld.inside
  rcases hcases with ⟨hgranted, hfree, hlocked, howners⟩ | ⟨hwaits, hword, howners⟩
  · -- the lock was free, so the token was with it
    rw [if_pos hgranted]
    obtain rfl := hheld.word.mp hfree
    have hzero : s.lock.owners = 0 := hheld.owners
    have hplaced := (hheld.toPlaced.withLock lock).grant a
    refine Held.inv ⟨hplaced, iff_of_false hlocked nofun, ?_, ?_⟩ haddr
    · intro r hr
      cases hinside r hr
    · show lock.owners + 0 = 1
      rw [howners, hzero]
  · rw [if_neg hwaits]
    refine Held.inv ⟨hheld.toPlaced.withLock lock, hword.trans hheld.word, hinside, ?_⟩ haddr
    show lock.owners + t.called = t.outstanding
    rw [howners]
    exact hheld.owners

theorem releaseStep_inv {s s' : State} {g : ℕ} (h : Inv s) (hs : releaseStep s g = some s') :
    Inv s' := by
  obtain ⟨n, t, hheld⟩ := h.held
  obtain ⟨lock, hlock, rfl⟩ := Option.map_eq_some_iff.mp hs
  obtain ⟨hothers, hreleased⟩ := releaseStep_released hlock
  have htoken : s.lock.releasing g ≠ .idle → t = .release g := hheld.inside g
  have hinside : ∀ r, lock.releasing r ≠ .idle → r ≠ g → t = .release r := by
    intro r hr hne
    rw [hothers r hne] at hr
    exact hheld.inside r hr
  -- when the call returns, no other one is inside
  have hidle : t = .release g → lock.releasing g = .idle → ∀ r, lock.releasing r = .idle := by
    intro ht hreturned r
    by_contra hr
    by_cases hrg : r = g
    · rw [hrg] at hr
      exact hr hreturned
    · have hother := hinside r hr hrg
      rw [ht] at hother
      exact hrg (Token.release.inj hother).symm
  cases hreleased with
  | unlocked hpc hreturned hstate howners hawaiting =>
      obtain rfl := htoken (by simp [hpc])
      simp only [hpc, hreturned]
      have hplaced := (hheld.toPlaced.withLock lock).finish
      refine Held.inv ⟨hplaced, ?_, fun r hr => ?_, ?_⟩ ?_
      · rw [State.finish_lock]
        exact iff_of_true hstate rfl
      · rw [State.finish_lock] at hr
        exact absurd (hidle rfl hreturned r) hr
      · rw [State.finish_lock]
        show lock.owners + 0 = 0
        have hone : s.lock.owners + 1 = 1 := hheld.owners
        omega
      · rw [State.finish_lock]
        show ∀ a, lock.awaiting a ≠ .idle → 1 < a
        rw [hawaiting]
        exact h.address
  | handedOff hpc hreturned hstate howners hawaiting =>
      obtain rfl := htoken (by simp [hpc])
      rename_i a
      simp only [hpc, hreturned]
      -- the token passes the lock on its way to the awaiter
      have hplaced := (hheld.toPlaced.withLock lock).finish.grant a
      refine Held.inv ⟨hplaced, ?_, fun r hr => ?_, ?_⟩ ?_
      · rw [State.grant_lock, State.finish_lock]
        show lock.state = notLocked ↔ _
        rw [hstate, hheld.word]
        exact iff_of_false nofun nofun
      · rw [State.grant_lock, State.finish_lock] at hr
        exact absurd (hidle rfl hreturned r) hr
      · rw [State.grant_lock, State.finish_lock]
        show lock.owners + 0 = 1
        have hone : s.lock.owners + 1 = 1 := hheld.owners
        omega
      · rw [State.grant_lock, State.finish_lock]
        show ∀ b, lock.awaiting b ≠ .idle → 1 < b
        rw [hawaiting]
        exact (forall_update_iff s.lock.awaiting fun b x => x ≠ .idle → 1 < b).mpr
          ⟨fun hne => absurd rfl hne, fun b _ => h.address b⟩
  | goesOn hpc hin hstate howners hawaiting =>
      obtain rfl := htoken hpc
      have hsame : (match s.lock.releasing g, lock.releasing g with
          | .handOff awaitersHead, .idle =>
              (State.finish { s with lock := lock } g).grant awaitersHead
          | _, .idle => State.finish { s with lock := lock } g
          | _, _ => { s with lock := lock }) = { s with lock := lock } := by
        cases hr : lock.releasing g with
        | idle => exact absurd hr hin
        | _ => cases s.lock.releasing g <;> rfl
      rw [hsame]
      refine Held.inv ⟨hheld.toPlaced.withLock lock, ?_, fun r hr => ?_, ?_⟩ ?_
      · refine iff_of_false (hstate fun hfree => ?_) nofun
        cases hheld.word.mp hfree
      · by_cases hrg : r = g
        · rw [hrg]
        · exact hinside r hr hrg
      · show lock.owners + 1 = 1
        rw [howners]
        exact hheld.owners
      · show ∀ a, lock.awaiting a ≠ .idle → 1 < a
        rw [hawaiting]
        exact h.address

/-- A step of the guards with no call of the lock. -/
theorem Held.aside {s s' : State} {n : ℕ} {t t' : Token} (h : Held s n t)
    (hplaced : Placed s' n t') (hlock : s'.lock = s.lock)
    (hword : t = .lock ↔ t' = .lock) (hinside : ∀ r, t = .release r → t' = .release r)
    (hcalled : t'.called = t.called) (houtstanding : t'.outstanding = t.outstanding) :
    Held s' n t' where
  toPlaced := hplaced
  word := by
    rw [hlock]
    exact h.word.trans hword
  inside r hr := by
    rw [hlock] at hr
    exact hinside r (h.inside r hr)
  owners := by
    rw [hlock, hcalled, houtstanding]
    exact h.owners

/-- The guard that has the token calls `release`. -/
theorem Held.callRelease {s : State} {n g : ℕ} {pc : GuardPc} (h : Held s n (.guard g))
    (hrel : pc.releasing = some n) : Held (s.callRelease g n pc) n (.release g) where
  toPlaced := h.toPlaced.callRelease hrel
  word := iff_of_false (fun hfree => by cases h.word.mp hfree) nofun
  inside r hr := by
    by_cases hrg : r = g
    · rw [hrg]
    · have hr : update s.lock.releasing g .readAwaiters r ≠ .idle := hr
      rw [update_of_ne hrg] at hr
      cases h.inside r hr
  owners := by
    have hone : s.lock.owners + 0 = 1 := h.owners
    show s.lock.owners - 1 + 1 = 1
    omega

theorem GuardPc.releasing_of_alive {pc : GuardPc} {lock : Option ℕ} (h : pc = .alive lock) :
    pc.releasing = none := by
  rw [h]
  rfl

/-- A guard with a null pointer moves on without a call of the lock. -/
theorem Held.goGuard {s : State} {n g : ℕ} {t : Token} {pc : GuardPc} (h : Held s n t)
    (hg : s.guards g = .alive none) (hpc : ∀ i, pc ≠ .alive (some i))
    (hrel : pc.releasing = none) : Held (s.goGuard g pc) n t := by
  have hguard : t ≠ .guard g := h.ne_guard (by simp [hg])
  have hrelease : t ≠ .release g := h.ne_release (GuardPc.releasing_of_alive hg)
  exact h.aside (h.toPlaced.goGuard hguard hrelease hpc hrel) rfl Iff.rfl (fun _ => id) rfl rfl

/-- The pointer of `alg` goes to the guard `g`, which has no token. -/
theorem Held.take {s : State} {n g alg : ℕ} {t : Token} {lock : Option ℕ} (h : Held s n t)
    (hne : g ≠ alg) (hg : ∀ i, s.guards g ≠ .alive (some i)) (hr : (s.guards g).releasing = none)
    (halg : s.guards alg = .alive lock) :
    ∃ t', Held ((s.goGuard g (.alive lock)).goGuard alg (.alive none)) n t' := by
  cases lock with
  | none =>
      have halg' : ∀ i, s.guards alg ≠ .alive (some i) := by
        intro i
        rw [halg]
        nofun
      have hfirst : Placed (s.goGuard g (.alive none)) n t :=
        h.toPlaced.goGuard (h.ne_guard hg) (h.ne_release hr) nofun rfl
      have hsecond : Placed ((s.goGuard g (.alive none)).goGuard alg (.alive none)) n t :=
        hfirst.goGuard (h.ne_guard halg') (h.ne_release (GuardPc.releasing_of_alive halg)) nofun rfl
      exact ⟨t, h.aside hsecond rfl Iff.rfl (fun _ => id) rfl rfl⟩
  | some i =>
      obtain ⟨rfl, rfl⟩ := h.eq_of_alive halg
      exact ⟨.guard g, h.aside (h.toPlaced.move hne) rfl (iff_of_false nofun nofun) nofun rfl rfl⟩

theorem step_inv {s s' : State} {act : Act} (h : Inv s) (hs : step s act = some s') :
    Inv s' := by
  obtain ⟨n, t, hheld⟩ := h.held
  cases act with
  | acquire a =>
      simp only [step] at hs
      split at hs
      · rename_i hguard
        cases hs
        refine Held.inv (n := n) (t := t) ⟨hheld.toPlaced.withLock _, hheld.word, hheld.inside,
          hheld.owners⟩ ?_
        exact (forall_update_iff s.lock.awaiting fun b x => x ≠ .idle → 1 < b).mpr
          ⟨fun _ => hguard.1, fun b _ => h.address b⟩
      · cases hs
  | await a spurious => exact awaitStep_inv h hs
  | awaitResume a g =>
      simp only [step] at hs
      split at hs
      · rename_i i ha hg
        cases hs
        obtain ⟨rfl, rfl⟩ := (hheld.granted a i).mp ha
        exact (hheld.aside hheld.toPlaced.awaitResume rfl (iff_of_false nofun nofun) nofun rfl
          rfl).inv h.address
      · cases hs
  | moveConstruct g alg =>
      simp only [step] at hs
      split at hs
      · rename_i lock hg halg
        cases hs
        have hne : g ≠ alg := ne_of_apply_ne s.guards (by rw [hg, halg]; simp)
        obtain ⟨t', ht'⟩ := hheld.take hne (by simp [hg]) (by rw [hg]; rfl) halg
        exact ht'.inv h.address
      · cases hs
  | moveAssign g alg =>
      simp only [step] at hs
      split at hs
      · rename_i lock lock' hg halg
        split at hs
        · cases hs
          exact h
        · cases lock with
          | some i =>
              cases hs
              obtain ⟨rfl, rfl⟩ := hheld.eq_of_alive hg
              exact (hheld.callRelease rfl).inv h.address
          | none =>
              cases hs
              exact (hheld.goGuard hg (by simp) rfl).inv h.address
      · cases hs
  | take g =>
      simp only [step] at hs
      split at hs
      · rename_i alg hg
        split at hs
        · rename_i lock halg
          cases hs
          have hne : g ≠ alg := ne_of_apply_ne s.guards (by rw [hg, halg]; simp)
          obtain ⟨t', ht'⟩ := hheld.take hne (by simp [hg]) (by rw [hg]; rfl) halg
          exact ht'.inv h.address
        · cases hs
      · cases hs
  | destroy g =>
      simp only [step] at hs
      split at hs
      · rename_i i hg
        cases hs
        obtain ⟨rfl, rfl⟩ := hheld.eq_of_alive hg
        exact (hheld.callRelease rfl).inv h.address
      · rename_i hg
        cases hs
        exact (hheld.goGuard hg (by simp) rfl).inv h.address
      · cases hs
  | release g => exact releaseStep_inv h hs

theorem reachable_inv {s : State} (h : system.Reachable s) : Inv s :=
  h.invariant (I := Inv) (by rintro _ rfl; exact initial_inv) fun _ _ _ hi _ hs => step_inv hi hs

/-- **The lock has one owner at a time.** In every reachable state at most one acquisition is
outstanding, the word is `NOT_LOCKED` exactly when none is, and each is released at most once,
however its guard was moved. -/
theorem exclusive (s : State) (h : system.Reachable s) : s.Exclusive := by
  obtain ⟨n, t, hheld⟩ := (reachable_inv h).held
  exact hheld.excludes

/-! ## The guards keep to the lock's contract

The lock's own model lets anyone call `release` who owns an acquisition. The guards do no more
than that, so every run of the guards is a run of the lock. -/

theorem step_refines {s s' : State} {act : Act} (h : Inv s) (hs : step s act = some s') :
    s'.lock = s.lock ∨ ∃ act', AsyncLock.step s.lock act' = some s'.lock := by
  obtain ⟨n, t, hheld⟩ := h.held
  have hcall : ∀ {g i : ℕ} {pc : GuardPc}, s.guards g = .alive (some i) →
      AsyncLock.step s.lock (.callRelease g) = some (s.callRelease g i pc).lock := by
    intro g i pc hg
    obtain ⟨rfl, rfl⟩ := hheld.eq_of_alive hg
    have hone : s.lock.owners + 0 = 1 := hheld.owners
    have hidle : s.lock.releasing g = .idle := by
      by_contra hne
      cases hheld.inside g hne
    exact if_pos ⟨by omega, hidle⟩
  cases act with
  | acquire a =>
      simp only [step] at hs
      split at hs
      · rename_i hguard
        cases hs
        exact Or.inr ⟨.acquire a, if_pos ⟨hguard.1, hguard.2.1⟩⟩
      · cases hs
  | await a spurious =>
      obtain ⟨lock, hlock, rfl⟩ := Option.map_eq_some_iff.mp hs
      refine Or.inr ⟨.await a spurious, hlock.trans ?_⟩
      split <;> rfl
  | awaitResume a g =>
      simp only [step] at hs
      split at hs
      · cases hs
        exact Or.inl rfl
      · cases hs
  | moveConstruct g alg =>
      simp only [step] at hs
      split at hs
      · cases hs
        exact Or.inl rfl
      · cases hs
  | moveAssign g alg =>
      simp only [step] at hs
      split at hs
      · rename_i lock lock' hg halg
        split at hs
        · cases hs
          exact Or.inl rfl
        · cases lock with
          | some i =>
              cases hs
              exact Or.inr ⟨.callRelease g, hcall hg⟩
          | none =>
              cases hs
              exact Or.inl rfl
      · cases hs
  | take g =>
      simp only [step] at hs
      split at hs
      · split at hs
        · cases hs
          exact Or.inl rfl
        · cases hs
      · cases hs
  | destroy g =>
      simp only [step] at hs
      split at hs
      · rename_i i hg
        cases hs
        exact Or.inr ⟨.callRelease g, hcall hg⟩
      · cases hs
        exact Or.inl rfl
      · cases hs
  | release g =>
      obtain ⟨lock, hlock, rfl⟩ := Option.map_eq_some_iff.mp hs
      refine Or.inr ⟨.release g, hlock.trans ?_⟩
      split <;> simp

theorem lock_reachable {s : State} (h : system.Reachable s) :
    AsyncLock.system.Reachable s.lock := by
  have hboth : Inv s ∧ AsyncLock.system.Reachable s.lock := by
    apply h.invariant
    · rintro _ rfl
      exact ⟨initial_inv, .init rfl⟩
    · rintro s act s' ⟨hinv, hlock⟩ _ hs
      refine ⟨step_inv hinv hs, ?_⟩
      rcases step_refines hinv hs with heq | ⟨act', hs'⟩
      · rw [heq]
        exact hlock
      · exact .step hlock trivial hs'
  exact hboth.2

/-- The guard of the first acquisition is moved twice and released by the assignment of the guard
of the second one, which is still there at the end. -/
def movedAndAssigned : List Act :=
  [.acquire 8, .await 8 false, .await 8 false, .awaitResume 8 1, .moveConstruct 2 1,
    .moveAssign 1 2, .take 1, .moveAssign 2 2, .destroy 1, .release 1, .release 1,
    .acquire 16, .await 16 true, .await 16 true, .await 16 false, .awaitResume 16 3,
    .moveAssign 2 3, .take 2, .destroy 3]

theorem exclusive_moved_and_assigned :
    ∃ s, system.Reachable s ∧ s.acquisitions = 2 ∧ s.released = [0] ∧
      s.guards 2 = .alive (some 1) ∧ s.Exclusive := by
  have h0 : system.Reachable initial := .init rfl
  have hs := h0.run movedAndAssigned rfl
  exact ⟨_, hs, rfl, rfl, rfl, exclusive _ hs⟩

end Coroutines.AsyncLock.Guard
