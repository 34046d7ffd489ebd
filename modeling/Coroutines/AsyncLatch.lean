import Coroutines.Lib.Transition
import Coroutines.Lib.Links

/-!
# The asynchronous latch

`primitives/async-latch/async_latch.hpp`. The latch is two atomic words, a count
and the head of an intrusive list of awaiters. `co_await` tests the count and
then pushes its awaiter with a compare-exchange on the list; `count_down`
decrements the count with a compare-exchange, and the call that leaves it at zero
reads the list and resumes whoever is on it. Nothing ties the test of the count
to the push, nor the decrement to the read of the list: this file interleaves
those steps freely, for any number of awaits and `count_down` calls.
-/

namespace Coroutines.AsyncLatch

open Transition Links Function

/-! ## The model -/

/-- Where the `co_await latch` with the awaiter at one address stands. -/
inductive AwaitPc
  | idle
  | awaitReady                        -- before the load of the count
  | loadHead                          -- `await_suspend`, before `awaiters.load`
  | checkExpired (oldHead : Option ℕ) -- in the loop, before `latch.expired()`
  | exchange (oldHead : Option ℕ)     -- before the compare-exchange
  | suspended
deriving DecidableEq

/-- Where one call of `count_down(n)` stands. -/
inductive DownPc
  | idle
  | loadCount (n : ℕ)
  | exchange (n oldCount : ℕ)         -- in the loop, `old_count` loaded
  | loadAwaiters                      -- this call left the count at zero
  | resuming (awaiter : Option ℕ)
deriving DecidableEq

structure State where
  count : ℕ
  /-- The head of the list of awaiters. -/
  awaiters : Option ℕ
  /-- `latch_awaiter::next_awaiter`, by the address of the awaiter. -/
  nextAwaiter : ℕ → Option ℕ
  awaiting : ℕ → AwaitPc
  counting : ℕ → DownPc
  /-- History: how often the awaiter suspended, and how often its handle was
  resumed. -/
  suspensions : ℕ → ℕ
  resumptions : ℕ → ℕ

/-- What moves next. `spurious` makes a weak compare-exchange fail although the
word holds the expected value. -/
inductive Act
  | coAwait (a : ℕ)
  | await (a : ℕ) (spurious : Bool)
  | callCountDown (d n : ℕ)
  | countDown (d : ℕ) (spurious : Bool)
deriving DecidableEq

def initial (count : ℕ) : State where
  count := count
  awaiters := none
  nextAwaiter := fun _ => none
  awaiting := fun _ => .idle
  counting := fun _ => .idle
  suspensions := fun _ => 0
  resumptions := fun _ => 0

def State.expired (s : State) : Prop := s.count = 0

instance (s : State) : Decidable s.expired := inferInstanceAs (Decidable (s.count = 0))

def State.goAwait (s : State) (a : ℕ) (pc : AwaitPc) : State :=
  { s with awaiting := update s.awaiting a pc }

def State.goDown (s : State) (d : ℕ) (pc : DownPc) : State :=
  { s with counting := update s.counting d pc }

/-- The constructor of the awaiter, then `await_ready`. -/
def State.coAwait (s : State) (a : ℕ) : State :=
  { s with
    nextAwaiter := update s.nextAwaiter a none
    awaiting := update s.awaiting a .awaitReady }

/-- The compare-exchange of `await_suspend` succeeded. -/
def State.push (s : State) (a : ℕ) : State :=
  { s with
    awaiters := some a
    awaiting := update s.awaiting a .suspended
    suspensions := update s.suspensions a (s.suspensions a + 1) }

/-- One step of `await_ready` and then `await_suspend`. -/
def awaitStep (s : State) (a : ℕ) (spurious : Bool) : Option State :=
  match s.awaiting a with
  | .idle => none
  | .awaitReady => some (s.goAwait a (if s.expired then .idle else .loadHead))
  | .loadHead => some (s.goAwait a (.checkExpired s.awaiters))
  | .checkExpired oldHead =>
      if s.expired then some (s.goAwait a .idle)
      else some ({ s with nextAwaiter := update s.nextAwaiter a oldHead }.goAwait a
        (.exchange oldHead))
  | .exchange oldHead =>
      if s.awaiters = oldHead ∧ spurious = false then some (s.push a)
      else some (s.goAwait a (.checkExpired s.awaiters))
  | .suspended => none

/-- `awaiter->coro_handle.resume()`. Resuming a coroutine that is not suspended
here is undefined; the model then only records the call. -/
def State.resume (s : State) (a : ℕ) : State :=
  { s with
    awaiting := if s.awaiting a = .suspended then update s.awaiting a .idle else s.awaiting
    resumptions := update s.resumptions a (s.resumptions a + 1) }

/-- One step of `count_down`; the link is read before the awaiter is resumed. -/
def countDownStep (s : State) (d : ℕ) (spurious : Bool) : Option State :=
  match s.counting d with
  | .idle => none
  | .loadCount n => some (s.goDown d (.exchange n s.count))
  | .exchange n oldCount =>
      if oldCount < n then some (s.goDown d .idle)
      else if s.count = oldCount ∧ spurious = false then
        some ({ s with count := oldCount - n }.goDown d
          (if oldCount - n = 0 then .loadAwaiters else .idle))
      else some (s.goDown d (.exchange n s.count))
  | .loadAwaiters => some (s.goDown d (.resuming s.awaiters))
  | .resuming none => some (s.goDown d .idle)
  | .resuming (some a) => some ((s.goDown d (.resuming (s.nextAwaiter a))).resume a)

def step (s : State) : Act → Option State
  | .coAwait a => if s.awaiting a = .idle then some (s.coAwait a) else none
  | .await a spurious => awaitStep s a spurious
  | .callCountDown d n =>
      if s.counting d = .idle then some (s.goDown d (.loadCount n)) else none
  | .countDown d spurious => countDownStep s d spurious

/-- `assert(count_ > 0)` in the constructor. -/
def system : System State Act where
  Init s := ∃ count, 0 < count ∧ s = initial count
  step := step

/-! ## The lost wake-up -/

/-- The await is inside `await_suspend`. -/
def AwaitPc.suspending : AwaitPc → Bool
  | .loadHead | .checkExpired _ | .exchange _ => true
  | _ => false

/-- The latch has expired, nothing is in progress, and a coroutine is still
suspended. -/
def State.Stranded (s : State) : Prop :=
  s.expired ∧ (∀ a, (s.awaiting a).suspending = false) ∧ (∀ d, s.counting d = .idle) ∧
    ∃ a, s.awaiting a = .suspended

/-- The awaiter passes the test of the count, the only `count_down` then
decrements, reads the empty list and returns, and the awaiter is pushed last. -/
def lostWakeup : List Act :=
  [.coAwait 7, .await 7 false, .await 7 false, .await 7 false,
    .callCountDown 0 1, .countDown 0 false, .countDown 0 false, .countDown 0 false,
    .countDown 0 false, .await 7 false]

theorem stranded_after_lost_wakeup : ¬ ∀ s, system.Reachable s → ¬ s.Stranded := by
  intro h
  have hr : system.Reachable (initial 1) := .init ⟨1, by decide, rfl⟩
  refine h _ (hr.run lostWakeup rfl) ⟨rfl, fun a => ?_, fun d => ?_, 7, rfl⟩
  · by_cases ha : a = 7
    · subst ha
      rfl
    · simp [State.push, State.goAwait, State.goDown, State.coAwait, initial, ha]
      rfl
  · by_cases hd : d = 0
    · subst hd
      rfl
    · simp [State.push, State.goAwait, State.goDown, State.coAwait, initial]

/-! ## Pushes in time -/

/-- The call will read the list of awaiters before it returns: it left the count
at zero and has not read it yet, or it is a `count_down(0)` on an expired latch,
which leaves its loop only to read the list. -/
def State.WillRead (s : State) (d : ℕ) : Prop :=
  s.counting d = .loadAwaiters ∨
    s.expired ∧ (s.counting d = .loadCount 0 ∨ ∃ oldCount, s.counting d = .exchange 0 oldCount)

/-- The list of awaiters will be read again: the count is not zero yet, or some
call in progress has the read still to come. -/
def State.ReadToCome (s : State) : Prop :=
  ¬ s.expired ∨ ∃ d, s.WillRead d

/-- A compare-exchange that pushes an awaiter is in time when the list is still
to be read. -/
def InTime (s : State) : Act → Prop
  | .await a spurious =>
      s.awaiting a = .exchange s.awaiters ∧ spurious = false → s.ReadToCome
  | _ => True

def State.Suspended (s : State) (a : ℕ) : Prop := s.awaiting a = .suspended

/-- The awaiter can be reached from a pointer through suspended awaiters only;
others on the way may have been resumed and started over. -/
abbrev State.Reaches (s : State) (p : Option ℕ) (a : ℕ) : Prop :=
  Linked s.nextAwaiter s.Suspended p a

/-- Every suspended awaiter is ahead of somebody: on the list that is still to be
read, or on what a resuming call has left. -/
def State.Covered (s : State) (a : ℕ) : Prop :=
  (s.ReadToCome ∧ s.Reaches s.awaiters a) ∨
    ∃ d p, s.counting d = .resuming p ∧ s.Reaches p a

structure Inv (s : State) : Prop where
  link : ∀ a oldHead, s.awaiting a = .exchange oldHead → s.nextAwaiter a = oldHead
  covered : ∀ a, s.Suspended a → s.Covered a

theorem initial_inv (count : ℕ) : Inv (initial count) where
  link _ _ h := by simp [initial] at h
  covered _ h := by simp [initial, State.Suspended] at h

/-- Coverage only depends on the suspended awaiters, their links, the head of the
list and the `count_down` side. -/
theorem State.Covered.mono {s s' : State} {a : ℕ} (h : s.Covered a)
    (hsusp : ∀ b, s.Suspended b → s'.Suspended b ∧ s'.nextAwaiter b = s.nextAwaiter b)
    (hread : s.ReadToCome → s'.ReadToCome) (hhead : s'.awaiters = s.awaiters)
    (hcount : ∀ d p, s.counting d = .resuming p → s'.counting d = .resuming p) :
    s'.Covered a := by
  rcases h with ⟨hr, hl⟩ | ⟨d, p, hd, hl⟩
  · refine Or.inl ⟨hread hr, ?_⟩
    rw [hhead]
    exact hl.mono hsusp
  · exact Or.inr ⟨d, p, hcount d p hd, hl.mono hsusp⟩

/-- A party that neither is nor becomes suspended moves, and may write its own
link. -/
theorem Inv.goAwait {s : State} (h : Inv s) {a : ℕ} {pc : AwaitPc} {q : Option ℕ}
    (ha : s.awaiting a ≠ .suspended) (hpc : pc ≠ .suspended)
    (hlink : ∀ oldHead, pc = .exchange oldHead → q = oldHead) :
    Inv ({ s with nextAwaiter := update s.nextAwaiter a q }.goAwait a pc) := by
  refine ⟨fun b oldHead hb => ?_, fun b hb => ?_⟩
  · by_cases hba : b = a
    · subst hba
      simp only [State.goAwait, update_self] at hb ⊢
      exact hlink oldHead hb
    · simp only [State.goAwait, update_of_ne hba] at hb ⊢
      exact h.link b oldHead hb
  · have hne : ∀ c, s.Suspended c → c ≠ a := by
      rintro c hc rfl
      exact ha hc
    have hba : b ≠ a := by
      rintro rfl
      simp [State.Suspended, State.goAwait, hpc] at hb
    have hsb : s.Suspended b := by
      simpa [State.Suspended, State.goAwait, hba] using hb
    refine (h.covered b hsb).mono (fun c hc => ?_) id rfl fun _ _ => id
    simpa [State.Suspended, State.goAwait, hne c hc] using hc

theorem Inv.goAwait_self {s : State} (h : Inv s) {a : ℕ} {pc : AwaitPc}
    (ha : s.awaiting a ≠ .suspended) (hpc : pc ≠ .suspended)
    (hex : ∀ oldHead, pc ≠ .exchange oldHead) : Inv (s.goAwait a pc) := by
  simpa using h.goAwait (q := s.nextAwaiter a) ha hpc fun o ho => absurd ho (hex o)

/-- A push in time: the new head reaches itself and, through itself, all that the
old head reached. -/
theorem Inv.push {s : State} (h : Inv s) {a : ℕ} (ha : s.awaiting a = .exchange s.awaiters)
    (hread : s.ReadToCome) : Inv (s.push a) := by
  have hmono : ∀ c, s.Suspended c → (s.push a).Suspended c ∧
      (s.push a).nextAwaiter c = s.nextAwaiter c := by
    intro c hc
    have hca : c ≠ a := by
      rintro rfl
      simp [State.Suspended, ha] at hc
    exact ⟨by simpa [State.Suspended, State.push, hca] using hc, rfl⟩
  have hself : (s.push a).Suspended a := by simp [State.Suspended, State.push]
  refine ⟨fun b oldHead hb => ?_, fun b hb => ?_⟩
  · have hba : b ≠ a := by
      rintro rfl
      simp [State.push] at hb
    exact h.link b oldHead (by simpa [State.push, hba] using hb)
  · by_cases hba : b = a
    · subst hba
      exact Or.inl ⟨hread, .here hself⟩
    · have hsb : s.Suspended b := by
        simpa [State.Suspended, State.push, hba] using hb
      rcases h.covered b hsb with ⟨hr, hl⟩ | ⟨d, p, hd, hl⟩
      · refine Or.inl ⟨hr, .there hself ?_⟩
        rw [show (s.push a).nextAwaiter a = s.awaiters from h.link a _ ha]
        exact hl.mono hmono
      · exact Or.inr ⟨d, p, hd, hl.mono hmono⟩

theorem awaitStep_inv {s s' : State} {a : ℕ} {spurious : Bool} (h : Inv s)
    (hok : InTime s (.await a spurious)) (hs : awaitStep s a spurious = some s') : Inv s' := by
  unfold awaitStep at hs
  split at hs
  · cases hs
  · rename_i hpc
    cases hs
    exact h.goAwait_self (by simp [hpc]) (by split <;> simp) (by intro o; split <;> simp)
  · rename_i hpc
    cases hs
    exact h.goAwait_self (by simp [hpc]) (by simp) (by simp)
  · rename_i oldHead hpc
    split at hs
    · cases hs
      exact h.goAwait_self (by simp [hpc]) (by simp) (by simp)
    · cases hs
      exact h.goAwait (by simp [hpc]) (by simp) (by simp)
  · rename_i oldHead hpc
    split at hs
    · rename_i hcas
      obtain ⟨rfl, rfl⟩ := hcas
      cases hs
      exact h.push hpc (hok ⟨hpc, rfl⟩)
    · cases hs
      exact h.goAwait_self (by simp [hpc]) (by simp) (by simp)
  · cases hs

/-- One `count_down` call moves on without resuming anybody; the count may drop. -/
theorem Inv.goDown {s : State} (h : Inv s) {d count : ℕ} {pc : DownPc}
    (hd : ∀ p, s.counting d ≠ .resuming (some p))
    (hread : s.ReadToCome → ({ s with count := count }.goDown d pc).ReadToCome ∨
      pc = .resuming s.awaiters) :
    Inv ({ s with count := count }.goDown d pc) := by
  refine ⟨h.link, fun a ha => ?_⟩
  rcases h.covered a ha with ⟨hr, hl⟩ | ⟨e, p, he, hl⟩
  · rcases hread hr with hr' | rfl
    · exact Or.inl ⟨hr', hl⟩
    · exact Or.inr ⟨d, s.awaiters, by simp [State.goDown], hl⟩
  · have hed : e ≠ d := by
      rintro rfl
      cases hl with
      | here => exact hd _ he
      | there => exact hd _ he
    exact Or.inr ⟨e, p, by simpa [State.goDown, hed] using he, hl⟩

theorem State.ReadToCome.goDown {s : State} {d : ℕ} {pc : DownPc} (h : s.ReadToCome)
    (hd : ¬ s.WillRead d) : (s.goDown d pc).ReadToCome := by
  rcases h with h | ⟨e, he⟩
  · exact Or.inl h
  · have hed : e ≠ d := by
      rintro rfl
      exact hd he
    refine Or.inr ⟨e, ?_⟩
    simpa [State.WillRead, State.goDown, State.expired, hed] using he

theorem Inv.resume {s : State} (h : Inv s) {d b : ℕ}
    (hd : s.counting d = .resuming (some b)) :
    Inv ((s.goDown d (.resuming (s.nextAwaiter b))).resume b) := by
  set s' := (s.goDown d (.resuming (s.nextAwaiter b))).resume b with hs'
  have hstay : ∀ c, c ≠ b → (s'.awaiting c = s.awaiting c) := by
    intro c hc
    by_cases hsb : s.awaiting b = .suspended <;>
      simp [hs', State.resume, State.goDown, hsb, hc]
  have hb' : ¬ s'.Suspended b := by
    by_cases hsb : s.awaiting b = .suspended <;>
      simp [State.Suspended, hs', State.resume, State.goDown, hsb]
  have hmono : ∀ c, s.Suspended c ∧ c ≠ b →
      s'.Suspended c ∧ s'.nextAwaiter c = s.nextAwaiter c :=
    fun c hc => ⟨(hstay c hc.2).trans hc.1, rfl⟩
  have hread : s.ReadToCome → s'.ReadToCome := fun hr =>
    hr.goDown (by simp [State.WillRead, hd])
  have hself : s'.counting d = .resuming (s.nextAwaiter b) := by
    simp [hs', State.resume, State.goDown]
  refine ⟨fun c oldHead hc => ?_, fun a ha => ?_⟩
  · apply h.link c oldHead
    by_cases hcb : c = b
    · subst hcb
      by_cases hsb : s.awaiting c = .suspended
      · simp [hs', State.resume, State.goDown, hsb] at hc
      · simpa [hs', State.resume, State.goDown, hsb] using hc
    · rw [← hstay c hcb]
      exact hc
  · have hab : a ≠ b := by
      rintro rfl
      exact hb' ha
    have hsa : s.Suspended a := (hstay a hab).symm.trans ha
    -- whoever was reached past `b` is now reached from the link out of `b`
    have hcut : ∀ p, s.Reaches p a → s'.Reaches p a ∨ s'.Covered a := by
      intro p hl
      rcases hl.cut hab with hl | hl
      · exact Or.inl (hl.mono hmono)
      · exact Or.inr (Or.inr ⟨d, _, hself, hl.mono hmono⟩)
    rcases h.covered a hsa with ⟨hr, hl⟩ | ⟨e, p, he, hl⟩
    · rcases hcut _ hl with hl | hc
      · exact Or.inl ⟨hread hr, hl⟩
      · exact hc
    · by_cases hed : e = d
      · subst hed
        cases he.symm.trans hd
        rcases hl.cut hab with hl | hl
        · cases hl with
          | here hb => exact absurd rfl hb.2
          | there hb => exact absurd rfl hb.2
        · exact Or.inr ⟨e, _, hself, hl.mono hmono⟩
      · rcases hcut _ hl with hl | hc
        · refine Or.inr ⟨e, p, ?_, hl⟩
          simpa [hs', State.resume, State.goDown, hed] using he
        · exact hc

theorem countDownStep_inv {s s' : State} {d : ℕ} {spurious : Bool} (h : Inv s)
    (hs : countDownStep s d spurious = some s') : Inv s' := by
  unfold countDownStep at hs
  split at hs
  · cases hs
  · rename_i n hpc
    cases hs
    refine h.goDown (by simp [hpc]) fun hr => Or.inl ?_
    by_cases hn : s.expired ∧ n = 0
    · exact Or.inr ⟨d, Or.inr ⟨hn.1, Or.inr ⟨s.count, by simp [State.goDown, hn.2]⟩⟩⟩
    · exact hr.goDown fun hw => hn (by simpa [State.WillRead, hpc] using hw)
  · rename_i n oldCount hpc
    split at hs
    · rename_i hlt
      cases hs
      refine h.goDown (by simp [hpc]) fun hr => Or.inl (hr.goDown ?_)
      have hn : n ≠ 0 := by omega
      simp [State.WillRead, hpc, hn]
    · split at hs
      · rename_i hcas
        cases hs
        refine h.goDown (by simp [hpc]) fun _ => Or.inl ?_
        by_cases hz : oldCount - n = 0
        · exact Or.inr ⟨d, Or.inl (by simp [State.goDown, hz])⟩
        · exact Or.inl hz
      · cases hs
        refine h.goDown (by simp [hpc]) fun hr => Or.inl ?_
        by_cases hn : s.expired ∧ n = 0
        · exact Or.inr ⟨d, Or.inr ⟨hn.1, Or.inr ⟨s.count, by simp [State.goDown, hn.2]⟩⟩⟩
        · exact hr.goDown fun hw => hn (by simpa [State.WillRead, hpc] using hw)
  · rename_i hpc
    cases hs
    exact h.goDown (by simp [hpc]) fun _ => Or.inr rfl
  · rename_i hpc
    cases hs
    exact h.goDown (by simp [hpc]) fun hr =>
      Or.inl (hr.goDown (by simp [State.WillRead, hpc]))
  · rename_i a hpc
    cases hs
    exact h.resume hpc

theorem step_inv {s s' : State} {act : Act} (h : Inv s) (hok : InTime s act)
    (hs : step s act = some s') : Inv s' := by
  cases act with
  | coAwait a =>
      simp only [step] at hs
      split at hs
      · rename_i hpc
        cases hs
        exact h.goAwait (by simp [hpc]) (by simp) (by simp)
      · cases hs
  | await a spurious => exact awaitStep_inv h hok hs
  | callCountDown d n =>
      simp only [step] at hs
      split at hs
      · rename_i hpc
        cases hs
        exact h.goDown (by simp [hpc]) fun hr =>
          Or.inl (hr.goDown (by simp [State.WillRead, hpc]))
      · cases hs
  | countDown d spurious => exact countDownStep_inv h hs

theorem reachable_inv {s : State} (h : system.ReachableUnder InTime s) : Inv s :=
  h.invariant (I := Inv) (by rintro _ ⟨count, _, rfl⟩; exact initial_inv count)
    (fun _ _ _ hi hok hs => step_inv hi hok hs)

/-- A suspended awaiter is on its way to be resumed, so something is in progress. -/
theorem Inv.not_stranded {s : State} (h : Inv s) : ¬ s.Stranded := by
  rintro ⟨hexp, _, hidle, a, ha⟩
  rcases h.covered a ha with ⟨hr, _⟩ | ⟨d, p, hd, _⟩
  · rcases hr with hr | ⟨d, hd⟩
    · exact hr hexp
    · simp [State.WillRead, hidle d] at hd
  · rw [hidle d] at hd
    cases hd

end Coroutines.AsyncLatch
