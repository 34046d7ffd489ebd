import Coroutines.Lib.Transition
import Mathlib.Data.List.Nodup

/-!
# The asynchronous lock

`primitives/async-lock/async_lock.hpp`. One atomic word holds `NOT_LOCKED`,
`LOCKED_NO_WAITERS` or the address of the awaiter added last; awaiters link to
what the word held when they were added. `release` first serves its private queue
`awaiters`; when that is empty it tries to unlock, and if an awaiter was added
meanwhile it takes the stack off the word and reverses it into the queue.

Addresses are numbers here, as in the source: the null pointer is `0`, the two
sentinels are `0` and `1`, and the address of an awaiter object is above both.
Following a link means reading the object at that number, which is only defined
if an awaiter that was added is there.
-/

namespace Coroutines.AsyncLock

open Transition Function

/-! ## The model -/

def notLocked : ℕ := 0

def lockedNoWaiters : ℕ := 1

/-- Where the `co_await lock.acquire()` with the awaiter at one address stands. -/
inductive AwaitPc
  | idle
  | load                        -- `await_suspend`, before `lock.state.load`
  | exchange (prevState : ℕ)    -- in the loop
  | suspended
deriving DecidableEq

/-- Where one call of `release` stands. -/
inductive ReleasePc
  | idle
  | readAwaiters
  | tryUnlock                              -- before the strong compare-exchange
  | takeStack                              -- before the exchange
  | reverse (currentAwaiter awaitersHead : ℕ)
  | handOff (awaitersHead : ℕ)
  | crashed (address : ℕ)                  -- read an object that is not an awaiter
deriving DecidableEq

structure State where
  /-- `async_lock::state`. -/
  state : ℕ
  /-- `async_lock::awaiters`, the queue private to the owner of the lock. -/
  awaiters : ℕ
  /-- `async_lock_awaiter::next_awaiter`, by the address of the awaiter. -/
  nextAwaiter : ℕ → ℕ
  awaiting : ℕ → AwaitPc
  releasing : ℕ → ReleasePc
  /-- The acquisitions granted and not yet given to a `release`. -/
  owners : ℕ
  /-- History: the awaiters added to the lock, and those handed the lock, in order. -/
  added : List ℕ
  handed : List ℕ

/-- What moves next. `spurious` makes a weak compare-exchange fail although the
word holds the expected value. -/
inductive Act
  | acquire (a : ℕ)
  | await (a : ℕ) (spurious : Bool)
  | callRelease (r : ℕ)
  | release (r : ℕ)
deriving DecidableEq

def initial : State where
  state := notLocked
  awaiters := 0
  nextAwaiter := fun _ => 0
  awaiting := fun _ => .idle
  releasing := fun _ => .idle
  owners := 0
  added := []
  handed := []

def State.goAwait (s : State) (a : ℕ) (pc : AwaitPc) : State :=
  { s with awaiting := update s.awaiting a pc }

def State.goRelease (s : State) (r : ℕ) (pc : ReleasePc) : State :=
  { s with releasing := update s.releasing r pc }

/-- The compare-exchange that adds the awaiter to the list succeeded. -/
def State.push (s : State) (a : ℕ) : State :=
  { s with
    state := a
    awaiting := update s.awaiting a .suspended
    added := s.added ++ [a] }

/-- One step of `await_suspend`. -/
def awaitStep (s : State) (a : ℕ) (spurious : Bool) : Option State :=
  match s.awaiting a with
  | .idle => none
  | .load => some (s.goAwait a (.exchange s.state))
  | .exchange prevState =>
      if prevState = notLocked then
        if s.state = prevState ∧ spurious = false then
          -- acquired; the coroutine goes on with the guard
          some ({ s with state := lockedNoWaiters, owners := s.owners + 1 }.goAwait a .idle)
        else some (s.goAwait a (.exchange s.state))
      else
        let s := { s with nextAwaiter := update s.nextAwaiter a prevState }
        if s.state = prevState ∧ spurious = false then some (s.push a)
        else some (s.goAwait a (.exchange s.state))
  | .suspended => none

/-- One step of `release`. -/
def releaseStep (s : State) (r : ℕ) : Option State :=
  match s.releasing r with
  | .idle => none
  | .readAwaiters =>
      some (s.goRelease r (if s.awaiters = 0 then .tryUnlock else .handOff s.awaiters))
  | .tryUnlock =>
      if s.state = lockedNoWaiters then some ({ s with state := notLocked }.goRelease r .idle)
      else some (s.goRelease r .takeStack)
  | .takeStack =>
      -- `awaiters_head` is still null here
      some ({ s with state := lockedNoWaiters }.goRelease r (.reverse s.state 0))
  | .reverse currentAwaiter awaitersHead =>
      if s.awaiting currentAwaiter = .suspended then
        let tmp := s.nextAwaiter currentAwaiter
        let s := { s with nextAwaiter := update s.nextAwaiter currentAwaiter awaitersHead }
        some (s.goRelease r (if tmp = 0 then .handOff currentAwaiter
          else .reverse tmp currentAwaiter))
      else some (s.goRelease r (.crashed currentAwaiter))
  | .handOff awaitersHead =>
      if s.awaiting awaitersHead = .suspended then
        some ({ s with
          awaiters := s.nextAwaiter awaitersHead
          awaiting := update s.awaiting awaitersHead .idle
          owners := s.owners + 1
          handed := s.handed ++ [awaitersHead] }.goRelease r .idle)
      else some (s.goRelease r (.crashed awaitersHead))
  | .crashed _ => none

/-- An awaiter object has an address of its own, above the sentinels; `release` is
called by the guard of an acquisition. -/
def step (s : State) : Act → Option State
  | .acquire a =>
      if 1 < a ∧ s.awaiting a = .idle then some (s.goAwait a .load) else none
  | .await a spurious => awaitStep s a spurious
  | .callRelease r =>
      if 0 < s.owners ∧ s.releasing r = .idle then
        some ({ s with owners := s.owners - 1 }.goRelease r .readAwaiters)
      else none
  | .release r => releaseStep s r

def system : System State Act where
  Init s := s = initial
  step := step

/-! ## What the lock owes its awaiters -/

/-- `release` only ever read awaiters that were added; the lock was handed to the
awaiters in the order they were added, each once; and a free lock has handed itself
to all of them. -/
structure State.Orderly (s : State) : Prop where
  links : ∀ r x, s.releasing r ≠ .crashed x
  order : s.handed <+: s.added
  served : s.state = notLocked → s.handed = s.added

/-- One coroutine acquires, a second suspends, the first releases. -/
def oneWaiter : List Act :=
  [.acquire 8, .await 8 false, .await 8 false,
    .acquire 16, .await 16 false, .await 16 false,
    .callRelease 0, .release 0, .release 0, .release 0, .release 0, .release 0]

/-- The reversal follows the first awaiter's link to the sentinel `1`. -/
theorem not_orderly_after_one_waiter : ¬ ∀ s, system.Reachable s → s.Orderly := by
  intro h
  have hr : system.Reachable initial := .init rfl
  exact (h _ (hr.run oneWaiter rfl)).links 0 lockedNoWaiters rfl

/-! ## Releases that nobody waits for -/

/-- A `release` whose own queue is empty finds no awaiter on the word. -/
def Uncontended (s : State) : Act → Prop
  | .release r => s.releasing r = .tryUnlock → s.state = lockedNoWaiters
  | _ => True

/-- The stack of awaiters from a value of the word: each links to what the word held
before it, and the first one to `LOCKED_NO_WAITERS`. -/
def Stack (nextAwaiter : ℕ → ℕ) : ℕ → List ℕ → Prop
  | word, [] => word = lockedNoWaiters
  | word, a :: l => word = a ∧ Stack nextAwaiter (nextAwaiter a) l

theorem Stack.update {nextAwaiter : ℕ → ℕ} {word a q : ℕ} {l : List ℕ}
    (h : Stack nextAwaiter word l) (ha : a ∉ l) :
    Stack (update nextAwaiter a q) word l := by
  induction l generalizing word with
  | nil => exact h
  | cons b l ih =>
      rw [List.mem_cons, not_or] at ha
      refine ⟨h.1, ?_⟩
      rw [update_of_ne (Ne.symm ha.1)]
      exact ih h.2 ha.2

/-- A value of the word that starts a stack is never null. -/
theorem Stack.ne_zero {nextAwaiter : ℕ → ℕ} {word : ℕ} {l : List ℕ}
    (h : Stack nextAwaiter word l) (hl : ∀ a ∈ l, 1 < a) : word ≠ 0 := by
  cases l with
  | nil =>
      rw [h]
      decide
  | cons a l =>
      have ha := hl a List.mem_cons_self
      rw [h.1]
      omega

/-- A stack that starts at the sentinel is empty. -/
theorem Stack.eq_nil {nextAwaiter : ℕ → ℕ} {l : List ℕ}
    (h : Stack nextAwaiter lockedNoWaiters l) (hl : ∀ a ∈ l, 1 < a) : l = [] := by
  cases l with
  | nil => rfl
  | cons a l =>
      have ha := hl a List.mem_cons_self
      rw [← h.1] at ha
      exact absurd ha (by decide)

/-- The suspended awaiters `l` are on the word, last first, unless the lock is free. -/
structure OnWord (s : State) (l : List ℕ) : Prop where
  address : ∀ a, s.awaiting a ≠ .idle → 1 < a
  suspended : ∀ a ∈ l, s.awaiting a = .suspended
  nodup : l.Nodup
  word : s.state = notLocked ∧ l = [] ∨ Stack s.nextAwaiter s.state l

theorem initial_onWord : OnWord initial [] where
  address _ h := absurd rfl h
  suspended _ ha := absurd ha List.not_mem_nil
  nodup := List.nodup_nil
  word := Or.inl ⟨rfl, rfl⟩

section
variable {s : State} {l : List ℕ}

theorem OnWord.one_lt (h : OnWord s l) {m : List ℕ} (hm : ∀ a ∈ m, s.awaiting a = .suspended) :
    ∀ a ∈ m, 1 < a := by
  intro a ha
  apply h.address
  simp [hm a ha]

theorem OnWord.notMem (h : OnWord s l) {a : ℕ} (ha : s.awaiting a ≠ .suspended) : a ∉ l :=
  fun hmem => ha (h.suspended a hmem)

/-- A free lock has no awaiters on its word, and neither has the sentinel. -/
theorem OnWord.nil_iff (h : OnWord s l) :
    l = [] ↔ s.state = notLocked ∨ s.state = lockedNoWaiters := by
  have hl := h.one_lt h.suspended
  constructor
  · rintro rfl
    exact h.word.imp And.left id
  · intro hs
    rcases h.word with ⟨_, hnil⟩ | hstack
    · exact hnil
    · rcases hs with hs | hs
      · exact absurd hs (hstack.ne_zero hl)
      · rw [hs] at hstack
        exact hstack.eq_nil hl

/-- An awaiter that neither is nor becomes suspended moves, and may write its own
link. -/
theorem OnWord.goAwait (h : OnWord s l) {a : ℕ} {pc : AwaitPc} (q : ℕ)
    (ha : s.awaiting a ≠ .suspended) (haddr : pc ≠ .idle → 1 < a) :
    OnWord ({ s with nextAwaiter := update s.nextAwaiter a q }.goAwait a pc) l := by
  have hnot := h.notMem ha
  refine ⟨?_, fun b hb => ?_, h.nodup, h.word.imp_right fun hstack => hstack.update hnot⟩
  · exact (forall_update_iff s.awaiting fun b x => x ≠ .idle → 1 < b).mpr
      ⟨haddr, fun b _ => h.address b⟩
  · have hba : b ≠ a := by
      rintro rfl
      exact hnot hb
    exact (update_of_ne hba pc s.awaiting).trans (h.suspended b hb)

/-- The link of an awaiter elsewhere is written. -/
theorem OnWord.setLink (h : OnWord s l) {a : ℕ} (ha : a ∉ l) (q : ℕ) :
    OnWord { s with nextAwaiter := update s.nextAwaiter a q } l :=
  ⟨h.address, h.suspended, h.nodup, h.word.imp_right fun hstack => hstack.update ha⟩

theorem OnWord.goRelease (h : OnWord s l) (r owners : ℕ) (pc : ReleasePc) :
    OnWord ({ s with owners := owners }.goRelease r pc) l :=
  ⟨h.address, h.suspended, h.nodup, h.word⟩

/-- The free lock is taken. -/
theorem OnWord.lock (h : OnWord s l) (hfree : s.state = notLocked) (owners : ℕ) :
    OnWord { s with state := lockedNoWaiters, owners := owners } l := by
  obtain rfl := h.nil_iff.mpr (Or.inl hfree)
  exact ⟨h.address, h.suspended, h.nodup, Or.inr rfl⟩

/-- The word is free again: nobody has come in front of the sentinel. -/
theorem OnWord.unlock (h : OnWord s l) (hlocked : s.state = lockedNoWaiters) :
    OnWord { s with state := notLocked } l := by
  obtain rfl := h.nil_iff.mpr (Or.inr hlocked)
  exact ⟨h.address, h.suspended, h.nodup, Or.inl ⟨rfl, rfl⟩⟩

/-- **An awaiter is put on the word**, in front of the others. -/
theorem OnWord.push (h : OnWord s l) {a : ℕ} (ha : s.awaiting a ≠ .suspended) (haddr : 1 < a)
    (hheld : s.state ≠ notLocked) :
    OnWord ({ s with nextAwaiter := update s.nextAwaiter a s.state }.push a) (a :: l) := by
  have hnot := h.notMem ha
  have hstack := h.word.resolve_left fun hfree => hheld hfree.1
  refine ⟨?_, fun b hb => ?_, List.nodup_cons.mpr ⟨hnot, h.nodup⟩, Or.inr ⟨rfl, ?_⟩⟩
  · exact (forall_update_iff s.awaiting fun b x => x ≠ .idle → 1 < b).mpr
      ⟨fun _ => haddr, fun b _ => h.address b⟩
  · show update s.awaiting a .suspended b = .suspended
    by_cases hba : b = a
    · rw [hba, update_self]
    · rw [update_of_ne hba]
      exact h.suspended b ((List.mem_cons.mp hb).resolve_left hba)
  · show Stack (update s.nextAwaiter a s.state) (update s.nextAwaiter a s.state a) l
    rw [update_self]
    exact hstack.update hnot

end

/-- While no release was contended, the word carries all awaiters ever added, last
first, and nobody has been handed the lock. -/
structure Inv (s : State) : Prop where
  quiet : ∀ r, s.releasing r = .idle ∨ s.releasing r = .readAwaiters ∨
    s.releasing r = .tryUnlock
  queue : s.awaiters = 0
  handed : s.handed = []
  onWord : OnWord s s.added.reverse
  complete : ∀ a, s.awaiting a = .suspended → a ∈ s.added

theorem initial_inv : Inv initial where
  quiet _ := Or.inl rfl
  queue := rfl
  handed := rfl
  onWord := initial_onWord
  complete a ha := by simp [initial] at ha

theorem Inv.added_nil_iff {s : State} (h : Inv s) :
    s.added = [] ↔ s.state = notLocked ∨ s.state = lockedNoWaiters :=
  List.reverse_eq_nil_iff.symm.trans h.onWord.nil_iff

/-- An awaiter that neither is nor becomes suspended moves, and may write its own
link. -/
theorem Inv.goAwait {s : State} (h : Inv s) {a : ℕ} {pc : AwaitPc} (q : ℕ)
    (ha : s.awaiting a ≠ .suspended) (hpc : pc ≠ .suspended) (haddr : pc ≠ .idle → 1 < a) :
    Inv ({ s with nextAwaiter := update s.nextAwaiter a q }.goAwait a pc) := by
  refine ⟨h.quiet, h.queue, h.handed, h.onWord.goAwait q ha haddr, ?_⟩
  exact (forall_update_iff s.awaiting fun b x => x = .suspended → b ∈ s.added).mpr
    ⟨fun hsusp => absurd hsusp hpc, fun b _ => h.complete b⟩

theorem Inv.goAwait_self {s : State} (h : Inv s) {a : ℕ} {pc : AwaitPc}
    (ha : s.awaiting a ≠ .suspended) (hpc : pc ≠ .suspended) (haddr : pc ≠ .idle → 1 < a) :
    Inv (s.goAwait a pc) := by
  simpa using h.goAwait (s.nextAwaiter a) ha hpc haddr

theorem Inv.lock {s : State} (h : Inv s) (hs : s.state = notLocked) (owners : ℕ) :
    Inv { s with state := lockedNoWaiters, owners := owners } :=
  ⟨h.quiet, h.queue, h.handed, h.onWord.lock hs owners, h.complete⟩

theorem Inv.push {s : State} (h : Inv s) {a : ℕ} (ha : s.awaiting a ≠ .suspended)
    (haddr : 1 < a) (hs : s.state ≠ notLocked) :
    Inv ({ s with nextAwaiter := update s.nextAwaiter a s.state }.push a) := by
  refine ⟨h.quiet, h.queue, h.handed, ?_, ?_⟩
  · have hpush := h.onWord.push ha haddr hs
    rw [← List.reverse_concat] at hpush
    exact hpush
  · apply (forall_update_iff s.awaiting fun b x => x = .suspended → b ∈ s.added ++ [a]).mpr
    exact ⟨fun _ => List.mem_append_right _ (List.mem_singleton_self a),
      fun b _ hb => List.mem_append_left _ (h.complete b hb)⟩

/-- What one step of `await_suspend` does. -/
inductive Awaited (s : State) (a : ℕ) : State → Prop
  | read (hidle : s.awaiting a ≠ .idle) (hawake : s.awaiting a ≠ .suspended) :
      Awaited s a (s.goAwait a (.exchange s.state))
  | acquire (hpc : s.awaiting a = .exchange notLocked) (hfree : s.state = notLocked) :
      Awaited s a ({ s with state := lockedNoWaiters, owners := s.owners + 1 }.goAwait a .idle)
  | push (hpc : s.awaiting a = .exchange s.state) (hheld : s.state ≠ notLocked) :
      Awaited s a ({ s with nextAwaiter := update s.nextAwaiter a s.state }.push a)
  | link (prevState : ℕ) (hpc : s.awaiting a = .exchange prevState) :
      Awaited s a ({ s with nextAwaiter := update s.nextAwaiter a prevState }.goAwait a
        (.exchange s.state))

theorem awaitStep_awaited {s s' : State} {a : ℕ} {spurious : Bool}
    (hs : awaitStep s a spurious = some s') : Awaited s a s' := by
  unfold awaitStep at hs
  split at hs
  · cases hs
  · rename_i hpc
    cases hs
    exact .read (by simp [hpc]) (by simp [hpc])
  · rename_i prevState hpc
    split at hs
    · rename_i hprev
      split at hs
      · rename_i hcas
        cases hs
        exact .acquire (hprev ▸ hpc) (hcas.1.trans hprev)
      · cases hs
        exact .read (by simp [hpc]) (by simp [hpc])
    · rename_i hprev
      dsimp only at hs
      split at hs
      · rename_i hcas
        obtain ⟨rfl, rfl⟩ := hcas
        cases hs
        exact .push hpc hprev
      · cases hs
        exact .link prevState hpc
  · cases hs

theorem awaitStep_inv {s s' : State} {a : ℕ} {spurious : Bool} (h : Inv s)
    (hs : awaitStep s a spurious = some s') : Inv s' := by
  cases awaitStep_awaited hs with
  | read hidle hawake => exact h.goAwait_self hawake (by simp) fun _ => h.onWord.address a hidle
  | acquire hpc hfree => exact (h.lock hfree _).goAwait_self (by simp [hpc]) (by simp) (by simp)
  | push hpc hheld => exact h.push (by simp [hpc]) (h.onWord.address a (by simp [hpc])) hheld
  | link prevState hpc =>
      have haddr := h.onWord.address a (by simp [hpc])
      exact h.goAwait prevState (by simp [hpc]) (by simp) fun _ => haddr

theorem Inv.goRelease {s : State} (h : Inv s) (r owners : ℕ) {pc : ReleasePc}
    (hpc : pc = .idle ∨ pc = .readAwaiters ∨ pc = .tryUnlock) :
    Inv ({ s with owners := owners }.goRelease r pc) := by
  refine ⟨?_, h.queue, h.handed, h.onWord.goRelease r owners pc, h.complete⟩
  exact (forall_update_iff s.releasing fun _ x => x = .idle ∨ x = .readAwaiters ∨
    x = .tryUnlock).mpr ⟨hpc, fun u _ => h.quiet u⟩

theorem releaseStep_inv {s s' : State} {r : ℕ} (h : Inv s) (hok : Uncontended s (.release r))
    (hs : releaseStep s r = some s') : Inv s' := by
  unfold releaseStep at hs
  rcases h.quiet r with hpc | hpc | hpc
  · simp [hpc] at hs
  · simp only [hpc, h.queue, if_true, Option.some.injEq] at hs
    subst hs
    exact h.goRelease r s.owners (by simp)
  · have hlocked := hok hpc
    simp only [hpc, hlocked, if_true, Option.some.injEq] at hs
    subst hs
    have hi : Inv { s with state := notLocked } :=
      ⟨h.quiet, h.queue, h.handed, h.onWord.unlock hlocked, h.complete⟩
    exact hi.goRelease r s.owners (by simp)

theorem step_inv {s s' : State} {act : Act} (h : Inv s) (hok : Uncontended s act)
    (hs : step s act = some s') : Inv s' := by
  cases act with
  | acquire a =>
      simp only [step] at hs
      split at hs
      · rename_i hguard
        cases hs
        exact h.goAwait_self (by simp [hguard.2]) (by simp) fun _ => hguard.1
      · cases hs
  | await a spurious => exact awaitStep_inv h hs
  | callRelease r =>
      simp only [step] at hs
      split at hs
      · cases hs
        exact h.goRelease r _ (by simp)
      · cases hs
  | release r => exact releaseStep_inv h hok hs

theorem reachable_inv {s : State} (h : system.ReachableUnder Uncontended s) : Inv s :=
  h.invariant (I := Inv) (by rintro _ rfl; exact initial_inv)
    (fun _ _ _ hi hok hs => step_inv hi hok hs)

theorem Inv.orderly {s : State} (h : Inv s) : s.Orderly where
  links r x hr := by
    rcases h.quiet r with hq | hq | hq <;> rw [hq] at hr <;> cases hr
  order := by simp [h.handed]
  served hs := by rw [h.handed, h.added_nil_iff.mpr (Or.inl hs)]

/-! ## A contended release crashes -/

/-- The reversal of a stack of awaiters runs into the sentinel under it. -/
theorem reverse_crashes {r : ℕ} : ∀ (l : List ℕ) (s : State) (word head : ℕ),
    s.releasing r = .reverse word head → Stack s.nextAwaiter word l →
    (∀ a ∈ l, s.awaiting a = .suspended ∧ 1 < a) → l.Nodup →
    s.awaiting lockedNoWaiters ≠ .suspended →
    ∃ ls t, system.run s ls = some t ∧ ∃ x, t.releasing r = .crashed x
  | [], s, word, head, hr, hword, _, _, hone => by
      have hs : step s (.release r) = some (s.goRelease r (.crashed word)) := by
        rw [show word = lockedNoWaiters from hword] at hr ⊢
        simp [step, releaseStep, hr, hone]
      exact ⟨[.release r], _, (System.run_cons _ hs).trans rfl, word, by simp [State.goRelease]⟩
  | a :: l, s, word, head, hr, hstack, hl, hnd, hone => by
      obtain ⟨rfl, hstack⟩ := hstack
      obtain ⟨hnot, hnd⟩ := List.nodup_cons.mp hnd
      have hrest : ∀ b ∈ l, s.awaiting b = .suspended ∧ 1 < b :=
        fun b hb => hl b (List.mem_cons_of_mem _ hb)
      have htmp : s.nextAwaiter word ≠ 0 := hstack.ne_zero fun b hb => (hrest b hb).2
      set s' := { s with nextAwaiter := update s.nextAwaiter word head }.goRelease r
        (.reverse (s.nextAwaiter word) word) with hs'
      have hs : step s (.release r) = some s' := by
        simp [step, releaseStep, hr, (hl word List.mem_cons_self).1, htmp, hs']
      obtain ⟨ls, t, hrun, hx⟩ := reverse_crashes (r := r) l s' (s.nextAwaiter word) word
        (by simp [hs', State.goRelease]) (hstack.update hnot) hrest hnd hone
      exact ⟨.release r :: ls, t, (System.run_cons _ hs).trans hrun, hx⟩

/-- A contended `release` takes the stack off the word and crashes on it. -/
theorem contended_crashes : system.Breaks Uncontended State.Orderly := by
  intro s l t hreach hs hcont
  have h := reachable_inv hreach
  have hlow : ∀ x, x ≤ 1 → s.awaiting x ≠ .suspended := fun x hx hsusp => by
    have hlt := h.onWord.address x (by simp [hsusp])
    omega
  cases l with
  | acquire => exact absurd trivial hcont
  | await => exact absurd trivial hcont
  | callRelease => exact absurd trivial hcont
  | release r =>
      simp only [Uncontended, Classical.not_imp] at hcont
      obtain ⟨hpc, hword⟩ := hcont
      have ht : t = s.goRelease r .takeStack := by
        have hs' : releaseStep s r = some t := hs
        simpa [releaseStep, hpc, hword] using hs'.symm
      subst ht
      set u := { s with state := lockedNoWaiters }.goRelease r (.reverse s.state 0) with hu
      have hstep : system.step (s.goRelease r .takeStack) (.release r) = some u := by
        simp [system, step, releaseStep, State.goRelease, hu]
      have hur : u.releasing r = .reverse s.state 0 := by simp [hu, State.goRelease]
      have hcrash : ∃ ls v, system.run u ls = some v ∧ ∃ x, v.releasing r = .crashed x := by
        rcases h.onWord.word with ⟨hfree, _⟩ | hstack
        · -- the lock was free: the null pointer is taken for an awaiter
          refine ⟨[.release r], u.goRelease r (.crashed s.state), ?_, s.state, ?_⟩
          · refine (System.run_cons _ ?_).trans rfl
            have hzero : u.awaiting s.state ≠ .suspended := hlow _ (by rw [hfree]; decide)
            simp [system, step, releaseStep, hur, hzero]
          · simp [State.goRelease]
        · have hsusp := h.onWord.suspended
          exact reverse_crashes s.added.reverse u s.state 0 hur hstack
            (fun a ha => ⟨hsusp a ha, h.onWord.one_lt hsusp a ha⟩) h.onWord.nodup
            (hlow _ (Nat.le_refl 1))
      obtain ⟨ls, v, hrun, x, hx⟩ := hcrash
      exact ⟨.release r :: ls, v, (System.run_cons _ hstep).trans hrun,
        fun hv => hv.links r x hx⟩

/-- **The lock serves its awaiters exactly as long as no release is contended.** In
every run whose releases find no awaiter on the word the lock is orderly throughout,
and the first release that does find one can be continued to a state that is not. -/
theorem orderly_iff_uncontended (s : State) (h : system.ReachableUnder Uncontended s) :
    s.Orderly ∧ ∀ act t, system.step s act = some t → ¬ Uncontended s act →
      ∃ acts u, system.run t acts = some u ∧ ¬ u.Orderly :=
  ⟨(reachable_inv h).orderly, fun act t hs hcont => contended_crashes s act t h hs hcont⟩

/-- One coroutine acquires and releases, then a second one does. -/
def oneAfterTheOther : List Act :=
  [.acquire 8, .await 8 false, .await 8 false, .callRelease 0, .release 0, .release 0,
    .acquire 16, .await 16 false, .await 16 false, .callRelease 0, .release 0, .release 0]

theorem orderly_iff_uncontended_two_owners :
    ∃ s, system.ReachableUnder Uncontended s ∧ s.state = notLocked ∧ s.Orderly := by
  have hm : system.Meets Uncontended initial oneAfterTheOther :=
    ⟨trivial, _, rfl, trivial, _, rfl, trivial, _, rfl, trivial, _, rfl, nofun, _, rfl,
      fun _ => rfl, _, rfl, trivial, _, rfl, trivial, _, rfl, trivial, _, rfl, trivial, _, rfl,
      nofun, _, rfl, fun _ => rfl, _, rfl, trivial⟩
  have h0 : system.ReachableUnder Uncontended initial := .init rfl
  have hs := h0.run hm rfl
  exact ⟨_, hs, rfl, (orderly_iff_uncontended _ hs).1⟩

end Coroutines.AsyncLock
