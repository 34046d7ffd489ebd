import Coroutines.Lib.Transition
import Coroutines.Lib.Links

/-!
# The manual-reset event

`primitives/manual-reset-event/manual_reset_event.hpp`. One atomic word encodes
everything: the address of the event itself when the event is set, otherwise
the head of an intrusive list of awaiters (null when nobody waits). `co_await`
pushes its awaiter with a compare-exchange loop, `set` takes the whole list with
one exchange and resumes it, `reset` is one compare-exchange.

The model interleaves the atomic steps of any number of awaits, `set` calls and
`reset` calls. A coroutine resumed by a running `set` is one more party: it may
await again with the awaiter at the same address, or reset the event, while that
`set` is still walking its list.
-/

namespace Coroutines.ManualResetEvent

open Transition Links Function

/-! ## The model -/

/-- The values of `manual_reset_event::state`: the event's own address, or the
head of a list of awaiters. -/
inductive Word
  | self
  | ptr (head : Option ℕ)
deriving DecidableEq

/-- Where the `co_await` with the awaiter at one address stands. -/
inductive AwaitPc
  | idle
  | awaitReady               -- before the load in `is_set`
  | load                     -- `await_suspend`, before the first load
  | exchange (oldVal : Word) -- in the loop, `old_val` loaded
  | suspended
deriving DecidableEq

/-- Where one call of `set` stands. -/
inductive SetPc
  | idle
  | exchange
  | resuming (waiter : Option ℕ)
deriving DecidableEq

structure State where
  /-- `manual_reset_event::state`. -/
  state : Word
  /-- `awaiter::next_awaiter`, by the address of the awaiter. -/
  nextAwaiter : ℕ → Option ℕ
  awaiting : ℕ → AwaitPc
  setting : ℕ → SetPc
  /-- History: how often the awaiter suspended, and how often it was resumed. -/
  suspensions : ℕ → ℕ
  resumptions : ℕ → ℕ
  /-- History: the `set` call whose exchange took the awaiter off the word. -/
  detachedBy : ℕ → Option ℕ

/-- What moves next. `spurious` makes a weak compare-exchange fail although the
word holds the expected value. -/
inductive Act
  | coAwait (a : ℕ)
  | await (a : ℕ) (spurious : Bool)
  | callSet (t : ℕ)
  | set (t : ℕ)
  | reset
deriving DecidableEq

/-- The constructor; `next_awaiter` is not initialised by the awaiter's. -/
def initial (init : Bool) (junk : ℕ → Option ℕ) : State where
  state := if init then .self else .ptr none
  nextAwaiter := junk
  awaiting := fun _ => .idle
  setting := fun _ => .idle
  suspensions := fun _ => 0
  resumptions := fun _ => 0
  detachedBy := fun _ => none

def State.goAwait (s : State) (a : ℕ) (pc : AwaitPc) : State :=
  { s with awaiting := update s.awaiting a pc }

def State.goSet (s : State) (t : ℕ) (pc : SetPc) : State :=
  { s with setting := update s.setting t pc }

/-- The compare-exchange of `await_suspend` succeeded: the awaiter is the new
head of the list and its coroutine is suspended. -/
def State.push (s : State) (a : ℕ) : State :=
  { s with
    state := .ptr (some a)
    awaiting := update s.awaiting a .suspended
    suspensions := update s.suspensions a (s.suspensions a + 1)
    detachedBy := update s.detachedBy a none }

/-- One step of `await_ready` and then `await_suspend`. -/
def awaitStep (s : State) (a : ℕ) (spurious : Bool) : Option State :=
  match s.awaiting a with
  | .idle => none
  | .awaitReady => some (s.goAwait a (if s.state = .self then .idle else .load))
  | .load => some (s.goAwait a (.exchange s.state))
  -- already set: `await_suspend` returns false and the coroutine goes on
  | .exchange .self => some (s.goAwait a .idle)
  | .exchange (.ptr head) =>
      let s := { s with nextAwaiter := update s.nextAwaiter a head }
      if s.state = .ptr head ∧ spurious = false then some (s.push a)
      else some (s.goAwait a (.exchange s.state))
  | .suspended => none

/-- `set` exchanges its own address into the word; a list found there is now
this call's to resume. -/
def State.detach (s : State) (t : ℕ) : State :=
  { s with
    state := .self
    setting := update s.setting t
      (match s.state with
       | .self => .idle
       | .ptr head => .resuming head)
    detachedBy := fun a =>
      if s.awaiting a = .suspended ∧ s.detachedBy a = none then some t
      else s.detachedBy a }

/-- `waiter->awaiting_coro.resume()`. -/
def State.resume (s : State) (a : ℕ) : State :=
  { s with
    awaiting := update s.awaiting a .idle
    resumptions := update s.resumptions a (s.resumptions a + 1) }

/-- One step of `set`; the link is read before the waiter is resumed. -/
def setStep (s : State) (t : ℕ) : Option State :=
  match s.setting t with
  | .idle => none
  | .exchange => some (s.detach t)
  | .resuming none => some (s.goSet t .idle)
  | .resuming (some a) => some ((s.goSet t (.resuming (s.nextAwaiter a))).resume a)

def step (s : State) : Act → Option State
  | .coAwait a => if s.awaiting a = .idle then some (s.goAwait a .awaitReady) else none
  | .await a spurious => awaitStep s a spurious
  | .callSet t => if s.setting t = .idle then some (s.goSet t .exchange) else none
  | .set t => setStep s t
  | .reset => some (if s.state = .self then { s with state := .ptr none } else s)

def system : System State Act where
  Init s := ∃ init junk, s = initial init junk
  step := step

/-! ## Who holds the suspended awaiters -/

/-- The list head in the word, null when the event is set. -/
def Word.head : Word → Option ℕ
  | .self => none
  | .ptr head => head

/-- The rest of the list a `set` call still has to resume. -/
def SetPc.waiter : SetPc → Option ℕ
  | .resuming waiter => waiter
  | _ => none

/-- The awaiter is on the list in the word. -/
def State.Registered (s : State) (a : ℕ) : Prop :=
  ∃ l, Chain s.nextAwaiter s.state.head l ∧ a ∈ l

/-- The awaiter is on the list the `set` call `t` is walking. -/
def State.HeldBy (s : State) (t a : ℕ) : Prop :=
  ∃ l, Chain s.nextAwaiter (s.setting t).waiter l ∧ a ∈ l

/-- The suspended awaiters with a given detaching call. -/
def State.waiters (s : State) (o : Option ℕ) : Set ℕ :=
  {a | s.awaiting a = .suspended ∧ s.detachedBy a = o}

/-- The word and the running `set` calls share out the suspended awaiters: each
is on exactly one list, once. -/
structure Inv (s : State) : Prop where
  counts : ∀ a, s.resumptions a + (if s.awaiting a = .suspended then 1 else 0) =
    s.suspensions a
  word : Owns s.nextAwaiter s.state.head (s.waiters none)
  sets : ∀ t, Owns s.nextAwaiter (s.setting t).waiter (s.waiters (some t))

theorem initial_inv (init : Bool) (junk : ℕ → Option ℕ) : Inv (initial init junk) where
  counts a := by simp [initial]
  word := by cases init <;> simp [initial, Word.head, State.waiters]
  sets t := by simp [initial, SetPc.waiter, State.waiters]

/-- Moving a party that neither is nor becomes suspended, and writing only its
own link, leaves the lists alone. -/
theorem Inv.goAwait {s : State} (h : Inv s) {a : ℕ} {pc : AwaitPc} (q : Option ℕ)
    (ha : s.awaiting a ≠ .suspended) (hpc : pc ≠ .suspended) :
    Inv ({ s with nextAwaiter := update s.nextAwaiter a q }.goAwait a pc) := by
  have hsusp : ∀ b, update s.awaiting a pc b = .suspended ↔ s.awaiting b = .suspended := by
    intro b
    by_cases hba : b = a
    · subst hba
      simp [ha, hpc]
    · simp [hba]
  have hown : ∀ p o, Owns s.nextAwaiter p (s.waiters o) →
      Owns (update s.nextAwaiter a q) p
        (({ s with nextAwaiter := update s.nextAwaiter a q }.goAwait a pc).waiters o) := by
    intro p o ho
    refine ho.congr (fun b => ?_) fun b hb => update_of_ne ?_ _ _
    · simp [State.waiters, State.goAwait, hsusp]
    · rintro rfl
      exact ha hb.1
  exact ⟨fun b => by simpa [State.goAwait, hsusp] using h.counts b,
    hown _ _ h.word, fun t => hown _ _ (h.sets t)⟩

theorem Inv.goAwait_self {s : State} (h : Inv s) {a : ℕ} {pc : AwaitPc}
    (ha : s.awaiting a ≠ .suspended) (hpc : pc ≠ .suspended) : Inv (s.goAwait a pc) := by
  simpa using h.goAwait (s.nextAwaiter a) ha hpc

/-- The push moves the awaiter from the running parties to the word's list. -/
theorem Inv.push {s : State} (h : Inv s) {a : ℕ} {head : Option ℕ}
    (ha : s.awaiting a ≠ .suspended) (hhead : s.state = .ptr head) :
    Inv ({ s with nextAwaiter := update s.nextAwaiter a head }.push a) := by
  have hword : Owns s.nextAwaiter head (s.waiters none) := by
    simpa [hhead, Word.head] using h.word
  refine ⟨fun b => ?_, ?_, fun t => ?_⟩
  · have hb := h.counts b
    by_cases hba : b = a
    · subst hba
      simpa [State.push, ha] using hb
    · simpa [State.push, hba] using hb
  · have hp := hword.push (x := a) fun hmem => ha hmem.1
    refine hp.congr (fun b => ?_) fun _ _ => rfl
    by_cases hba : b = a <;> simp [State.push, State.waiters, hba]
  · refine (h.sets t).congr (fun b => ?_) fun b hb => update_of_ne ?_ _ _
    · by_cases hba : b = a
      · subst hba
        simp [State.push, State.waiters, ha]
      · simp [State.push, State.waiters, hba]
    · rintro rfl
      exact ha hb.1

theorem awaitStep_inv {s s' : State} {a : ℕ} {spurious : Bool} (h : Inv s)
    (hs : awaitStep s a spurious = some s') : Inv s' := by
  unfold awaitStep at hs
  split at hs
  · cases hs
  · rename_i hpc
    cases hs
    exact h.goAwait_self (by simp [hpc]) (by split <;> simp)
  · rename_i hpc
    cases hs
    exact h.goAwait_self (by simp [hpc]) (by simp)
  · rename_i hpc
    cases hs
    exact h.goAwait_self (by simp [hpc]) (by simp)
  · rename_i head hpc
    have ha : s.awaiting a ≠ .suspended := by simp [hpc]
    dsimp only at hs
    split at hs
    · rename_i hcas
      cases hs
      exact h.push ha hcas.1
    · cases hs
      exact h.goAwait head ha (by simp)
  · cases hs

/-- The exchange of `set` hands every registered awaiter to this call. -/
theorem Inv.detach {s : State} (h : Inv s) {t : ℕ} (ht : s.setting t = .exchange) :
    Inv (s.detach t) := by
  have hnone : s.waiters (some t) = ∅ := by
    simpa [ht, SetPc.waiter] using h.sets t
  refine ⟨h.counts, ?_, fun u => ?_⟩
  · rw [show (s.detach t).state.head = none from rfl, owns_none]
    apply Set.eq_empty_iff_forall_notMem.mpr
    rintro b ⟨hb, hd⟩
    by_cases hreg : s.detachedBy b = none
    · simp [State.detach, show s.awaiting b = .suspended from hb, hreg] at hd
    · simp [State.detach, hreg] at hd
  · by_cases hut : u = t
    · subst hut
      have hhead : ((s.detach u).setting u).waiter = s.state.head := by
        cases hw : s.state <;> simp [State.detach, SetPc.waiter, Word.head, hw]
      rw [hhead]
      refine h.word.congr (fun b => ?_) fun _ _ => rfl
      have hb : ¬ (s.awaiting b = .suspended ∧ s.detachedBy b = some u) := fun hb =>
        Set.eq_empty_iff_forall_notMem.mp hnone b hb
      by_cases hsusp : s.awaiting b = .suspended
      · by_cases hreg : s.detachedBy b = none
        · simp [State.detach, State.waiters, hsusp, hreg]
        · have hne : s.detachedBy b ≠ some u := fun he => hb ⟨hsusp, he⟩
          simp [State.detach, State.waiters, hreg, hne]
      · simp [State.detach, State.waiters, hsusp]
    · have hset : (s.detach t).setting u = s.setting u := by simp [State.detach, hut]
      rw [hset]
      refine (h.sets u).congr (fun b => ?_) fun _ _ => rfl
      by_cases hreg : s.awaiting b = .suspended ∧ s.detachedBy b = none
      · simp [State.detach, State.waiters, hreg, Ne.symm hut]
      · simp [State.detach, State.waiters, if_neg hreg]

/-- Resuming the waiter in front takes it, and only it, off the list. -/
theorem Inv.resume {s : State} (h : Inv s) {t a : ℕ} (ht : s.setting t = .resuming (some a)) :
    Inv ((s.goSet t (.resuming (s.nextAwaiter a))).resume a) := by
  have hown := h.sets t
  rw [ht] at hown
  obtain ⟨⟨hsusp, hdet⟩, hrest⟩ := hown.pop
  have hother : ∀ p o, o ≠ some t → Owns s.nextAwaiter p (s.waiters o) →
      Owns s.nextAwaiter p
        (((s.goSet t (.resuming (s.nextAwaiter a))).resume a).waiters o) := by
    intro p o hne ho
    refine ho.congr (fun b => ?_) fun _ _ => rfl
    by_cases hba : b = a
    · subst hba
      simp [State.waiters, State.resume, State.goSet, hdet, Ne.symm hne]
    · simp [State.waiters, State.resume, State.goSet, hba]
  refine ⟨fun b => ?_, hother _ _ (by simp) h.word, fun u => ?_⟩
  · have hb := h.counts b
    by_cases hba : b = a
    · subst hba
      simpa [State.resume, State.goSet, hsusp] using hb
    · simpa [State.resume, State.goSet, hba] using hb
  · by_cases hut : u = t
    · subst hut
      have hw : (((s.goSet u (.resuming (s.nextAwaiter a))).resume a).setting u).waiter =
          s.nextAwaiter a := by
        simp [State.resume, State.goSet, SetPc.waiter]
      rw [hw]
      refine hrest.congr (fun b => ?_) fun _ _ => rfl
      by_cases hba : b = a <;>
        simp [State.waiters, State.resume, State.goSet, hba]
    · have hw : ((s.goSet t (.resuming (s.nextAwaiter a))).resume a).setting u =
          s.setting u := by
        simp [State.resume, State.goSet, hut]
      rw [hw]
      exact hother _ _ (by simpa using hut) (h.sets u)

/-- A `set` call that holds no list may move on. -/
theorem Inv.goSet {s : State} (h : Inv s) {t : ℕ} {pc : SetPc}
    (ht : (s.setting t).waiter = none) (hpc : pc.waiter = none) : Inv (s.goSet t pc) := by
  refine ⟨h.counts, h.word, fun u => ?_⟩
  have hw : ((s.goSet t pc).setting u).waiter = (s.setting u).waiter := by
    by_cases hut : u = t
    · subst hut
      simp [State.goSet, ht, hpc]
    · simp [State.goSet, hut]
  rw [hw]
  exact h.sets u

theorem setStep_inv {s s' : State} {t : ℕ} (h : Inv s) (hs : setStep s t = some s') :
    Inv s' := by
  unfold setStep at hs
  split at hs
  · cases hs
  · rename_i hpc
    cases hs
    exact h.detach hpc
  · rename_i hpc
    cases hs
    exact h.goSet (by simp [hpc, SetPc.waiter]) rfl
  · rename_i a hpc
    cases hs
    exact h.resume hpc

theorem step_inv {s s' : State} {act : Act} (h : Inv s) (hs : step s act = some s') :
    Inv s' := by
  cases act with
  | coAwait a =>
      simp only [step] at hs
      split at hs
      · rename_i hpc
        cases hs
        exact h.goAwait_self (by simp [hpc]) (by simp)
      · cases hs
  | await a spurious => exact awaitStep_inv h hs
  | callSet t =>
      simp only [step] at hs
      split at hs
      · rename_i hpc
        cases hs
        exact h.goSet (by simp [hpc, SetPc.waiter]) rfl
      · cases hs
  | set t => exact setStep_inv h hs
  | reset =>
      cases hs
      split
      · rename_i hself
        have hw := h.word
        rw [hself] at hw
        exact ⟨h.counts, hw, h.sets⟩
      · exact h

theorem reachable_inv {s : State} (h : system.Reachable s) : Inv s :=
  h.invariant (I := Inv)
    (by rintro _ ⟨init, junk, rfl⟩; exact initial_inv init junk)
    (fun _ _ _ hi _ hs => step_inv hi hs)

/-! ## The results -/

theorem Inv.registered_iff {s : State} (h : Inv s) (a : ℕ) :
    s.Registered a ↔ s.awaiting a = .suspended ∧ s.detachedBy a = none := by
  obtain ⟨l, hc, _, hmem⟩ := h.word
  refine Iff.trans ⟨?_, fun ha => ⟨l, hc, ha⟩⟩ (hmem a)
  rintro ⟨l', hc', ha⟩
  rwa [hc.unique hc']

theorem Inv.heldBy_iff {s : State} (h : Inv s) (t a : ℕ) :
    s.HeldBy t a ↔ s.awaiting a = .suspended ∧ s.detachedBy a = some t := by
  obtain ⟨l, hc, _, hmem⟩ := h.sets t
  refine Iff.trans ⟨?_, fun ha => ⟨l, hc, ha⟩⟩ (hmem a)
  rintro ⟨l', hc', ha⟩
  rwa [hc.unique hc']

/-- **Every awaiter is resumed once, by the set that detached it.** In every
reachable state resumptions lag suspensions by exactly the current suspension;
the waiter a `set` call is about to resume is suspended and was detached by that
call's own exchange; a suspended awaiter is on the word's list or on the list of
the call that detached it; `reset` keeps every registered awaiter; and once the
event is set and no `set` call runs, nobody is suspended. -/
theorem awaiters_resumed_by_their_set (s : State) (h : system.Reachable s) :
    (∀ a, s.resumptions a + (if s.awaiting a = .suspended then 1 else 0) =
      s.suspensions a) ∧
    (∀ t a, s.setting t = .resuming (some a) →
      s.awaiting a = .suspended ∧ s.detachedBy a = some t) ∧
    (∀ a, (s.Registered a ↔ s.awaiting a = .suspended ∧ s.detachedBy a = none) ∧
      ∀ t, s.HeldBy t a ↔ s.awaiting a = .suspended ∧ s.detachedBy a = some t) ∧
    (∀ s', system.step s .reset = some s' → ∀ a, s.Registered a → s'.Registered a) ∧
    (s.state = .self → (∀ t, s.setting t = .idle) → ∀ a, s.awaiting a ≠ .suspended) := by
  have hi := reachable_inv h
  refine ⟨hi.counts, ?_, fun a => ⟨hi.registered_iff a, fun t => hi.heldBy_iff t a⟩, ?_, ?_⟩
  · intro t a ht
    have hown := hi.sets t
    rw [ht] at hown
    exact hown.pop.1
  · intro s' hs a ha
    cases hs
    split
    · -- a set event has nobody registered
      rename_i hself
      obtain ⟨l, hc, hal⟩ := ha
      rw [hself] at hc
      exact ⟨l, hc, hal⟩
    · exact ha
  · intro hself hidle a ha
    cases hd : s.detachedBy a with
    | none =>
        obtain ⟨l, hc, hal⟩ := (hi.registered_iff a).mpr ⟨ha, hd⟩
        rw [hself] at hc
        cases chain_none.mp hc
        exact List.not_mem_nil hal
    | some t =>
        obtain ⟨l, hc, hal⟩ := (hi.heldBy_iff t a).mpr ⟨ha, hd⟩
        rw [hidle t] at hc
        cases chain_none.mp hc
        exact List.not_mem_nil hal

/-- An awaiter suspends, a `set` call detaches it, and while that call is about to
resume it the event is reset. -/
def resetDuringSet : List Act :=
  [.coAwait 7, .await 7 false, .await 7 false, .await 7 true, .await 7 false,
    .callSet 0, .set 0, .reset]

theorem awaiters_resumed_by_their_set_during_reset :
    ∃ s, system.Reachable s ∧ s.setting 0 = .resuming (some 7) ∧
      s.awaiting 7 = .suspended ∧ s.detachedBy 7 = some 0 := by
  have hr : system.Reachable (initial false fun _ => none) := .init ⟨_, _, rfl⟩
  have hs := hr.run resetDuringSet rfl
  exact ⟨_, hs, rfl, (awaiters_resumed_by_their_set _ hs).2.1 0 7 rfl⟩

end Coroutines.ManualResetEvent
