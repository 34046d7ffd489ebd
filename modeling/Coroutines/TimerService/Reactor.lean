import Coroutines.Lib.FlagWord
import Coroutines.Lib.Transition
import Coroutines.Lib.Tally

/-!
# Entering and leaving the reactor

`applications/timers/win-iocp/timer_service.hpp`. A thread that calls `run` enters the
reactor by adding two to `n_active_reactors`, whose lowest bit is the closed flag, and takes
two off when it leaves; `shutdown` sets the flag. The loop around the compare-exchange of
`try_enter_reactor` goes on while the exchange succeeds, and ends when it fails. The model
interleaves the atomic steps of any number of threads.
-/

namespace Coroutines.TimerService

open Transition Tally Function

/-! ## The model -/

def closedFlag : BitVec 32 := 1

def newReactorIncrement : BitVec 32 := 2

def closed (state : BitVec 32) : Prop := state &&& closedFlag ≠ 0

instance (state : BitVec 32) : Decidable (closed state) :=
  inferInstanceAs (Decidable (_ ≠ _))

theorem closed_add (state : BitVec 32) :
    closed (state + newReactorIncrement) ↔ closed state :=
  FlagWord.flagged_add_two (by decide) state

theorem closed_sub (state : BitVec 32) :
    closed (state - newReactorIncrement) ↔ closed state :=
  FlagWord.flagged_sub_two (by decide) state

theorem closed_or (state : BitVec 32) : closed (state ||| closedFlag) :=
  FlagWord.flagged_or_one (by decide) state

namespace Reactor

/-- Where a thread stands in `run`. The last number is history: the increments that its call
of `try_enter_reactor` has added. -/
inductive ThreadPc
  | outside
  | tryEnter (state : BitVec 32) (added : ℕ)   -- in the loop, before the test of `state`
  | entered (added : ℕ)                        -- `try_enter_reactor` returned true
  | refused (added : ℕ)                        -- it returned false
deriving DecidableEq

structure State where
  nActiveReactors : BitVec 32
  thread : ℕ → ThreadPc
  /-- History: the flag has been set by `shutdown`. -/
  shut : Bool

/-- What moves next. `spurious` makes a weak compare-exchange fail although the word holds
the expected value. -/
inductive Act
  | run (t : ℕ)
  | tryEnter (t : ℕ) (spurious : Bool)
  | leave (t : ℕ)
  | shutdown
deriving DecidableEq

def initial : State where
  nActiveReactors := 0
  thread := fun _ => .outside
  shut := false

def State.go (s : State) (t : ℕ) (pc : ThreadPc) : State :=
  { s with thread := update s.thread t pc }

/-- One round of the loop of `try_enter_reactor`. -/
def tryEnterReactor (s : State) (t : ℕ) (spurious : Bool) : Option State :=
  match s.thread t with
  | .tryEnter state added =>
      if closed state then some (s.go t (.refused added))
      else if s.nActiveReactors = state ∧ spurious = false then
        -- the exchange succeeded: the loop goes on, with the expected value as it was
        some ({ s with nActiveReactors := state + newReactorIncrement }.go t
          (.tryEnter state (added + 1)))
      else some (s.go t (.entered added))
  | _ => none

/-- `leave_reactor` after the loop of `run`; a thread that was refused just returns. -/
def leaveReactor (s : State) (t : ℕ) : Option State :=
  match s.thread t with
  | .entered _ => some ({ s with
      nActiveReactors := s.nActiveReactors - newReactorIncrement }.go t .outside)
  | .refused _ => some (s.go t .outside)
  | _ => none

def step (nThreads : ℕ) (s : State) : Act → Option State
  | .run t =>
      if t < nThreads ∧ s.thread t = .outside then
        some (s.go t (.tryEnter s.nActiveReactors 0))
      else none
  | .tryEnter t spurious => tryEnterReactor s t spurious
  | .leave t => leaveReactor s t
  | .shutdown => some { s with
      nActiveReactors := s.nActiveReactors ||| closedFlag
      shut := true }

def system (nThreads : ℕ) : System State Act where
  Init s := s = initial
  step := step nThreads

/-! ## What the word counts -/

/-- The thread has completed its increment and has not left. -/
def ThreadPc.Inside : ThreadPc → Prop
  | .tryEnter _ added => 0 < added
  | .entered _ => True
  | _ => False

instance : DecidablePred ThreadPc.Inside := fun pc => by
  cases pc <;> unfold ThreadPc.Inside <;> infer_instance

/-- The word is twice the threads inside, plus the flag; a call that returned true has added
one increment and one that returned false none; a thread that leaves does not wrap the
word. -/
structure State.Counted (nThreads : ℕ) (s : State) : Prop where
  word : s.nActiveReactors.toNat =
    2 * tally nThreads ThreadPc.Inside s.thread + s.shut.toNat
  entered : ∀ t added, s.thread t = .entered added → added = 1
  refused : ∀ t added, s.thread t = .refused added → added = 0
  leave : ∀ t added, s.thread t = .entered added → 2 ≤ s.nActiveReactors.toNat

/-- Two threads load the same word; the exchange of the first succeeds, the one of the second
fails, and the second is inside without having added anything. -/
def contended : List Act :=
  [.run 0, .run 1, .tryEnter 0 false, .tryEnter 1 false]

theorem not_counted_after_contention :
    ¬ ∀ nThreads s, (system nThreads).Reachable s → s.Counted nThreads := by
  intro h
  have hr : (system 2).Reachable initial := .init rfl
  have hcounted := h 2 _ (hr.run contended rfl)
  exact absurd (hcounted.entered 1 0 rfl) (by decide)

/-! ## Calls that meet no other -/

/-- The first attempt of a call finds the word as it loaded it, with room for one more
increment, and does not fail spuriously; the second does fail. -/
def Uncontended (s : State) : Act → Prop
  | .tryEnter t spurious => ∀ state added, s.thread t = .tryEnter state added →
      ¬ closed state →
      if added = 0 then
        s.nActiveReactors = state ∧ spurious = false ∧ state.toNat + 2 < 2 ^ 32
      else s.nActiveReactors ≠ state ∨ spurious = true
  | _ => True

structure Inv (nThreads : ℕ) (s : State) : Prop where
  counted : s.Counted nThreads
  one : ∀ t state added, s.thread t = .tryEnter state added →
    added ≤ 1 ∧ (closed state → added = 0)
  bound : ∀ t, nThreads ≤ t → s.thread t = .outside

theorem initial_inv (nThreads : ℕ) : Inv nThreads initial where
  counted := {
    word := by
      have hnone : tally nThreads ThreadPc.Inside initial.thread = 0 :=
        tally_eq_zero_iff.mpr fun _ _ => id
      rw [hnone]
      rfl
    entered := by intro t added h; cases h
    refused := by intro t added h; cases h
    leave := by intro t added h; cases h }
  one _ _ _ h := by cases h
  bound _ _ := rfl

theorem Inv.lt {nThreads : ℕ} {s : State} (h : Inv nThreads s) {t : ℕ}
    (ht : s.thread t ≠ .outside) : t < nThreads := by
  by_contra hge
  exact ht (h.bound t (Nat.le_of_not_lt hge))

/-- A thread inside is counted twice. -/
theorem two_le_of_inside {nThreads : ℕ} {s : State} (h : s.nActiveReactors.toNat =
      2 * tally nThreads ThreadPc.Inside s.thread + s.shut.toNat)
    {t : ℕ} (ht : t < nThreads) (hin : (s.thread t).Inside) : 2 ≤ s.nActiveReactors.toNat := by
  have hpos : tally nThreads ThreadPc.Inside s.thread ≠ 0 := by
    intro hzero
    exact tally_eq_zero_iff.mp hzero t ht hin
  omega

/-- **One thread moves**, and the word with it: up by two if it comes inside, down by two if it
leaves. -/
theorem Inv.go {nThreads : ℕ} {s : State} (h : Inv nThreads s) {t : ℕ} {pc : ThreadPc}
    {word : BitVec 32} (ht : t < nThreads)
    (hword : word.toNat + 2 * (if (s.thread t).Inside then 1 else 0) =
      s.nActiveReactors.toNat + 2 * (if pc.Inside then 1 else 0))
    (hentered : ∀ added, pc = .entered added → added = 1)
    (hrefused : ∀ added, pc = .refused added → added = 0)
    (hone : ∀ state added, pc = .tryEnter state added →
      added ≤ 1 ∧ (closed state → added = 0)) :
    Inv nThreads ({ s with nActiveReactors := word }.go t pc) := by
  have hcount : word.toNat =
      2 * tally nThreads ThreadPc.Inside (update s.thread t pc) + s.shut.toNat := by
    have htally := tally_update (p := ThreadPc.Inside) (f := s.thread) ht pc
    have hold := h.counted.word
    omega
  have hall : ∀ u added, update s.thread t pc u = .entered added → added = 1 :=
    (forall_update_iff s.thread fun _ x => ∀ added, x = .entered added → added = 1).mpr
      ⟨hentered, fun u _ => h.counted.entered u⟩
  have hbound : ∀ u, nThreads ≤ u → update s.thread t pc u = .outside := by
    intro u hu
    rw [update_of_ne (by omega)]
    exact h.bound u hu
  constructor
  case counted =>
    constructor
    case word => exact hcount
    case entered => exact hall
    case refused =>
      exact (forall_update_iff s.thread fun _ x => ∀ added, x = .refused added → added = 0).mpr
        ⟨hrefused, fun u _ => h.counted.refused u⟩
    case leave =>
      intro u added hu
      have hlt : u < nThreads := by
        by_contra hge
        have hu : update s.thread t pc u = .entered added := hu
        rw [hbound u (Nat.le_of_not_lt hge)] at hu
        cases hu
      apply two_le_of_inside hcount hlt
      rw [hu]
      trivial
  case one =>
    exact (forall_update_iff s.thread fun _ x => ∀ state added, x = .tryEnter state added →
      added ≤ 1 ∧ (closed state → added = 0)).mpr ⟨hone, fun u _ => h.one u⟩
  case bound => exact hbound

/-- A thread returns from its call. -/
theorem Inv.goOutside {nThreads : ℕ} {s : State} (h : Inv nThreads s) {t : ℕ} {word : BitVec 32}
    (ht : t < nThreads) (hword : word.toNat + 2 * (if (s.thread t).Inside then 1 else 0) =
      s.nActiveReactors.toNat) :
    Inv nThreads ({ s with nActiveReactors := word }.go t .outside) := by
  apply h.go ht
  · exact hword
  · intro k hk
    cases hk
  · intro k hk
    cases hk
  · intro st k hk
    cases hk

theorem tryEnterReactor_inv {nThreads : ℕ} {s s' : State} {t : ℕ} {spurious : Bool}
    (h : Inv nThreads s) (hok : Uncontended s (.tryEnter t spurious))
    (hs : tryEnterReactor s t spurious = some s') : Inv nThreads s' := by
  unfold tryEnterReactor at hs
  split at hs
  · rename_i state added hpc
    have ht : t < nThreads := h.lt (by rw [hpc]; exact nofun)
    obtain ⟨hadded, hzero⟩ := h.one t state added hpc
    split at hs
    · -- the flag was up before the call had added anything
      rename_i hclosed
      obtain rfl := hzero hclosed
      cases hs
      apply h.go ht
      · rw [hpc]
        rfl
      · intro k hk
        cases hk
      · intro k hk
        cases hk
        rfl
      · intro st k hk
        cases hk
    · rename_i hopen
      have hmeet := hok state added hpc hopen
      split at hs
      · rename_i hcas
        obtain rfl : added = 0 := by
          by_contra hne
          rw [if_neg hne] at hmeet
          rcases hmeet with hne | hspurious
          · exact hne hcas.1
          · rw [hcas.2] at hspurious
            cases hspurious
        rw [if_pos rfl] at hmeet
        cases hs
        apply h.go ht
        · have hinc : (state + newReactorIncrement).toNat = state.toNat + 2 := by
            rw [BitVec.toNat_add]
            exact Nat.mod_eq_of_lt hmeet.2.2
          rw [hpc, hinc, hcas.1]
          rfl
        · intro k hk
          cases hk
        · intro k hk
          cases hk
        · intro st k hk
          cases hk
          exact ⟨Nat.le_refl 1, fun hc => absurd hc hopen⟩
      · rename_i hcas
        obtain rfl : added = 1 := by
          by_contra hne
          have h0 : added = 0 := by omega
          rw [if_pos h0] at hmeet
          exact hcas ⟨hmeet.1, hmeet.2.1⟩
        cases hs
        apply h.go ht
        · rw [hpc]
          rfl
        · intro k hk
          cases hk
          rfl
        · intro k hk
          cases hk
        · intro st k hk
          cases hk
  · cases hs

theorem leaveReactor_inv {nThreads : ℕ} {s s' : State} {t : ℕ} (h : Inv nThreads s)
    (hs : leaveReactor s t = some s') : Inv nThreads s' := by
  unfold leaveReactor at hs
  split at hs
  · rename_i added hpc
    have ht : t < nThreads := h.lt (by rw [hpc]; exact nofun)
    have htwo := h.counted.leave t added hpc
    cases hs
    apply h.goOutside ht
    have hdec : (s.nActiveReactors - newReactorIncrement).toNat = s.nActiveReactors.toNat - 2 :=
      BitVec.toNat_sub_of_le (by rw [BitVec.le_def]; exact htwo)
    rw [hpc, hdec]
    exact Nat.sub_add_cancel htwo
  · rename_i added hpc
    have ht : t < nThreads := h.lt (by rw [hpc]; exact nofun)
    cases hs
    apply h.goOutside ht
    rw [hpc]
    rfl
  · cases hs

theorem step_inv {nThreads : ℕ} {s s' : State} {act : Act} (h : Inv nThreads s)
    (hok : Uncontended s act) (hs : step nThreads s act = some s') : Inv nThreads s' := by
  cases act with
  | run t =>
      simp only [step] at hs
      split at hs
      · rename_i hrun
        cases hs
        apply h.go hrun.1
        · rw [hrun.2]
          rfl
        · intro k hk
          cases hk
        · intro k hk
          cases hk
        · intro st k hk
          cases hk
          exact ⟨Nat.zero_le 1, fun _ => rfl⟩
      · cases hs
  | tryEnter t spurious => exact tryEnterReactor_inv h hok hs
  | leave t => exact leaveReactor_inv h hs
  | shutdown =>
      cases hs
      have hword := FlagWord.toNat_or_one (by decide) h.counted.word
      exact ⟨⟨hword, h.counted.entered, h.counted.refused, fun t added ht =>
        two_le_of_inside (t := t) hword (h.lt (by rw [ht]; exact nofun)) (by rw [ht]; trivial)⟩,
        h.one, h.bound⟩

/-- **A contended attempt shows at once**: the thread is inside without an increment, or it has
added a second one, or the word has wrapped. -/
theorem Inv.not_counted {nThreads : ℕ} {s s' : State} {t : ℕ} {spurious : Bool}
    (h : Inv nThreads s) (hok : ¬ Uncontended s (.tryEnter t spurious))
    (hs : tryEnterReactor s t spurious = some s') : ¬ s'.Counted nThreads := by
  intro hcounted
  apply hok
  intro state added hpc hopen
  have ht : t < nThreads := h.lt (by rw [hpc]; exact nofun)
  simp only [tryEnterReactor, hpc, if_neg hopen] at hs
  by_cases hcas : s.nActiveReactors = state ∧ spurious = false
  · rw [if_pos hcas] at hs
    cases hs
    have hold := h.counted.word
    have hnew := hcounted.word
    have htally := tally_update (p := ThreadPc.Inside) (f := s.thread) ht
      (.tryEnter state (added + 1))
    have hinside : (ThreadPc.tryEnter state (added + 1)).Inside := Nat.succ_pos added
    rw [if_pos hinside, hpc] at htally
    have hsum : (state + newReactorIncrement).toNat = (state.toNat + 2) % 2 ^ 32 :=
      BitVec.toNat_add _ _
    have hnew : (state + newReactorIncrement).toNat =
        2 * tally nThreads ThreadPc.Inside (update s.thread t (.tryEnter state (added + 1))) +
          s.shut.toNat := hnew
    rw [hcas.1] at hold
    by_cases h0 : added = 0
    · have hnot : ¬ (ThreadPc.tryEnter state added).Inside := by
        rw [h0]
        exact Nat.lt_irrefl 0
      rw [if_neg hnot] at htally
      rw [if_pos h0]
      exact ⟨hcas.1, hcas.2, by omega⟩
    · have hin : (ThreadPc.tryEnter state added).Inside := Nat.pos_of_ne_zero h0
      rw [if_pos hin] at htally
      omega
  · rw [if_neg hcas] at hs
    cases hs
    have hone : added = 1 := hcounted.entered t added (update_self _ _ _)
    rw [if_neg (by omega)]
    by_cases hspurious : spurious = true
    · exact Or.inr hspurious
    · exact Or.inl fun heq => hcas ⟨heq, Bool.eq_false_of_not_eq_true hspurious⟩

/-- **The word counts the reactors exactly while calls meet no other.** For any number of
threads, in every state reached by attempts that are uncontended the word is twice the threads
inside plus the flag, and every call has added what it returned; and the first attempt that is
contended leads to a state where this fails. -/
theorem counted_iff_uncontended (nThreads : ℕ) (s : State)
    (h : (system nThreads).ReachableUnder Uncontended s) :
    s.Counted nThreads ∧ ∀ act t, step nThreads s act = some t → ¬ Uncontended s act →
      ¬ t.Counted nThreads := by
  have hinv : Inv nThreads s := by
    apply h.invariant
    · rintro _ rfl
      exact initial_inv nThreads
    · exact fun _ _ _ hi hok hs => step_inv hi hok hs
  refine ⟨hinv.counted, fun act t hs hok => ?_⟩
  cases act with
  | run u => exact absurd trivial hok
  | tryEnter u spurious => exact hinv.not_counted hok hs
  | leave u => exact absurd trivial hok
  | shutdown => exact absurd trivial hok

/-- Two threads enter one after the other, the service is shut down, a third is refused, and
one leaves. -/
def oneAfterTheOther : List Act :=
  [.run 0, .tryEnter 0 false, .tryEnter 0 false, .run 1, .tryEnter 1 false, .tryEnter 1 false,
    .shutdown, .run 2, .tryEnter 2 false, .leave 0]

theorem counted_iff_uncontended_one_after_the_other :
    ∃ s, (system 3).ReachableUnder Uncontended s ∧ s.nActiveReactors = 3 ∧ s.Counted 3 := by
  have hm : (system 3).Meets Uncontended initial oneAfterTheOther := by
    refine ⟨trivial, _, rfl, ?_, _, rfl, ?_, _, rfl, trivial, _, rfl, ?_, _, rfl, ?_, _, rfl,
      trivial, _, rfl, trivial, _, rfl, ?_, _, rfl, trivial, _, rfl, trivial⟩
    · rintro state added hpc -
      cases hpc
      exact ⟨rfl, rfl, by decide⟩
    · rintro state added hpc -
      cases hpc
      exact Or.inl (by decide)
    · rintro state added hpc -
      cases hpc
      exact ⟨rfl, rfl, by decide⟩
    · rintro state added hpc -
      cases hpc
      exact Or.inl (by decide)
    · intro state added hpc hopen
      cases hpc
      exact absurd (by decide) hopen
  have h0 : (system 3).ReachableUnder Uncontended initial := .init rfl
  have hs := h0.run hm rfl
  exact ⟨_, hs, rfl, (counted_iff_uncontended 3 _ hs).1⟩

end Reactor

end Coroutines.TimerService
