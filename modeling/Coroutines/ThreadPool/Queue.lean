import Coroutines.Lib.Transition
import Coroutines.Lib.Tally

/-!
# The queue of the thread pool

`applications/threadpool/queue.hpp`. `push` and `push_batch` fill the buffer under the lock and
notify after they have released it; `pop` waits on the condition variable until the buffer is not
empty. A critical section is one step, and so is each `notify_one`.

A waiting consumer leaves the wait when it is notified, or spuriously, at any time, and then
takes the lock and tests the buffer again. `notify_one` wakes one consumer if one waits; that it
may wake more is as if the others woke spuriously.
-/

namespace Coroutines.ThreadPool.Queue

open Transition Tally Function

/-! ## The model -/

/-- Where a producer stands. -/
inductive ProducerPc
  | away
  | notify                                     -- in `push`, after the critical section
  | notifyBatch (i : BitVec 32) (size : ℕ)     -- in the loop of `push_batch`
deriving DecidableEq

/-- Where a consumer stands. -/
inductive ConsumerPc
  | away
  | lock     -- in `pop`, before it takes the lock and tests the buffer
  | wait     -- blocked on the condition variable
deriving DecidableEq

structure State where
  buffer : List ℕ
  producer : ℕ → ProducerPc
  consumer : ℕ → ConsumerPc
  /-- History: the values pushed, and those popped with the consumers that popped them. -/
  pushed : List ℕ
  popped : List (ℕ × ℕ)

/-- What moves next. `notify` comes with the consumer it wakes, if one waits. -/
inductive Act
  | push (p : ℕ) (value : ℕ)
  | pushBatch (p : ℕ) (values : List ℕ)
  | notify (p : ℕ) (woken : Option ℕ)
  | endBatch (p : ℕ)
  | callPop (c : ℕ)
  | pop (c : ℕ)
  | spurious (c : ℕ)
deriving DecidableEq

def initial : State where
  buffer := []
  producer := fun _ => .away
  consumer := fun _ => .away
  pushed := []
  popped := []

def State.goProducer (s : State) (p : ℕ) (pc : ProducerPc) : State :=
  { s with producer := update s.producer p pc }

def State.goConsumer (s : State) (c : ℕ) (pc : ConsumerPc) : State :=
  { s with consumer := update s.consumer c pc }

/-- A critical section of a producer. -/
def State.append (s : State) (values : List ℕ) : State :=
  { s with buffer := s.buffer ++ values, pushed := s.pushed ++ values }

/-- `non_empty_cv.notify_one()`. -/
def notifyOne (nConsumers : ℕ) (s : State) : Option ℕ → Option State
  | some c => if c < nConsumers ∧ s.consumer c = .wait then some (s.goConsumer c .lock) else none
  | none => if ∀ c < nConsumers, s.consumer c ≠ .wait then some s else none

def notifyStep (nConsumers : ℕ) (s : State) (p : ℕ) (woken : Option ℕ) : Option State :=
  match s.producer p with
  | .away => none
  | .notify => (notifyOne nConsumers s woken).map fun t => t.goProducer p .away
  | .notifyBatch i size =>
      if i.toNat < size then
        (notifyOne nConsumers s woken).map fun t => t.goProducer p (.notifyBatch (i + 1) size)
      else none

/-- The loop of `push_batch` is left. -/
def endBatchStep (s : State) (p : ℕ) : Option State :=
  match s.producer p with
  | .notifyBatch i size => if i.toNat < size then none else some (s.goProducer p .away)
  | _ => none

/-- The critical section of `pop`: a value is taken, or the consumer releases the lock and
blocks. -/
def popStep (s : State) (c : ℕ) : Option State :=
  if s.consumer c = .lock then
    match s.buffer with
    | [] => some (s.goConsumer c .wait)
    | popped :: rest =>
        some ({ s with buffer := rest, popped := s.popped ++ [(c, popped)] }.goConsumer c .away)
  else none

def step (nProducers nConsumers : ℕ) (s : State) : Act → Option State
  | .push p value =>
      if p < nProducers ∧ s.producer p = .away then
        some ((s.append [value]).goProducer p .notify)
      else none
  | .pushBatch p values =>
      if p < nProducers ∧ s.producer p = .away then
        some ((s.append values).goProducer p (.notifyBatch 0 values.length))
      else none
  | .notify p woken => if p < nProducers then notifyStep nConsumers s p woken else none
  | .endBatch p => if p < nProducers then endBatchStep s p else none
  | .callPop c =>
      if c < nConsumers ∧ s.consumer c = .away then some (s.goConsumer c .lock) else none
  | .pop c => if c < nConsumers then popStep s c else none
  | .spurious c =>
      if c < nConsumers ∧ s.consumer c = .wait then some (s.goConsumer c .lock) else none

def system (nProducers nConsumers : ℕ) : System State Act where
  Init s := s = initial
  step := step nProducers nConsumers

/-! ## What the queue promises -/

/-- How many notifications of the producer are still to come. -/
def ProducerPc.toCome : ProducerPc → ℕ
  | .away => 0
  | .notify => 1
  | .notifyBatch i size => size - i.toNat

/-- Values are waiting, and so are consumers, but no consumer is on its way to them and no
notification is still to come. -/
structure State.Lost (nProducers nConsumers : ℕ) (s : State) : Prop where
  nonempty : s.buffer ≠ []
  waiting : ∃ c < nConsumers, s.consumer c = .wait
  blocked : ∀ c < nConsumers, s.consumer c ≠ .lock
  silent : ∀ p < nProducers, (s.producer p).toCome = 0

/-- What was popped, in this order, is the first part of what was pushed. -/
def State.InOrder (s : State) : Prop :=
  s.pushed = s.popped.map Prod.snd ++ s.buffer

/-! ## Wake-ups on their way -/

/-- The consumers on their way to the buffer, and the notifications to come. -/
def State.wakeUps (nProducers nConsumers : ℕ) (s : State) : ℕ :=
  tally nConsumers (· = .lock) s.consumer + total nProducers ProducerPc.toCome s.producer

/-- While a consumer waits, there is a wake-up on its way for every value in the buffer. -/
structure Inv (nProducers nConsumers : ℕ) (s : State) : Prop where
  order : s.InOrder
  covered : (∃ c < nConsumers, s.consumer c = .wait) →
    s.buffer.length ≤ s.wakeUps nProducers nConsumers

section
variable {nProducers nConsumers : ℕ} {s s' : State}

theorem initial_inv : Inv nProducers nConsumers initial where
  order := rfl
  covered _ := Nat.zero_le _

/-- **No wake-up is lost**: a waiting consumer with a value in the buffer has a wake-up coming. -/
theorem Inv.not_lost (h : Inv nProducers nConsumers s) : ¬ s.Lost nProducers nConsumers := by
  rintro ⟨hnonempty, hwaiting, hblocked, hsilent⟩
  have hle := h.covered hwaiting
  rw [State.wakeUps, tally_eq_zero_iff.mpr hblocked, total_eq_zero_iff.mpr hsilent] at hle
  exact hnonempty (List.length_eq_zero_iff.mp (Nat.le_zero.mp hle))

/-! ### The parties move -/

theorem wakeUps_goProducer (nConsumers : ℕ) {p : ℕ} (hp : p < nProducers) (s : State)
    (pc : ProducerPc) :
    (s.goProducer p pc).wakeUps nProducers nConsumers + (s.producer p).toCome =
      s.wakeUps nProducers nConsumers + pc.toCome := by
  have hupdate := total_update (w := ProducerPc.toCome) (f := s.producer) hp pc
  unfold State.wakeUps State.goProducer
  dsimp only
  rw [Nat.add_assoc, hupdate, Nat.add_assoc]

theorem wakeUps_goConsumer (nProducers : ℕ) {c : ℕ} (hc : c < nConsumers) (s : State)
    (pc : ConsumerPc) :
    (s.goConsumer c pc).wakeUps nProducers nConsumers + (if s.consumer c = .lock then 1 else 0) =
      s.wakeUps nProducers nConsumers + (if pc = .lock then 1 else 0) := by
  have hupdate := tally_update (p := (· = .lock)) (f := s.consumer) hc pc
  unfold State.wakeUps State.goConsumer
  dsimp only
  omega

/-- Who waits after a consumer went elsewhere has waited before. -/
theorem waiting_of_goConsumer {c : ℕ} {pc : ConsumerPc} (hpc : pc ≠ .wait)
    (h : ∃ d < nConsumers, (s.goConsumer c pc).consumer d = .wait) :
    ∃ d < nConsumers, s.consumer d = .wait := by
  obtain ⟨d, hd, hwait⟩ := h
  have hwait : update s.consumer c pc d = .wait := hwait
  refine ⟨d, hd, ?_⟩
  by_cases hdc : d = c
  · rw [hdc, update_self] at hwait
    exact absurd hwait hpc
  · rwa [update_of_ne hdc] at hwait

/-- **A critical section of a producer**: as many notifications as values. -/
theorem Inv.append (h : Inv nProducers nConsumers s) {p : ℕ} (hp : p < nProducers)
    (haway : s.producer p = .away) {values : List ℕ} {pc : ProducerPc}
    (hcome : values.length ≤ pc.toCome) :
    Inv nProducers nConsumers ((s.append values).goProducer p pc) := by
  constructor
  · show s.pushed ++ values = s.popped.map Prod.snd ++ (s.buffer ++ values)
    rw [h.order, List.append_assoc]
  · intro hwaiting
    have hcovered := h.covered hwaiting
    have hmove := wakeUps_goProducer nConsumers hp (s.append values) pc
    have hsame : (s.append values).wakeUps nProducers nConsumers =
        s.wakeUps nProducers nConsumers := rfl
    have hold : ((s.append values).producer p).toCome = 0 := congrArg ProducerPc.toCome haway
    show (s.buffer ++ values).length ≤ _
    rw [List.length_append]
    omega

/-- **A consumer goes for the lock**, by a call or out of the wait. -/
theorem Inv.goLock (h : Inv nProducers nConsumers s) {c : ℕ} (hc : c < nConsumers)
    (hnot : s.consumer c ≠ .lock) : Inv nProducers nConsumers (s.goConsumer c .lock) := by
  refine ⟨h.order, fun hwaiting => ?_⟩
  have hcovered := h.covered (waiting_of_goConsumer (by simp) hwaiting)
  have hmove := wakeUps_goConsumer nProducers hc s .lock
  rw [if_neg hnot, if_pos rfl] at hmove
  show s.buffer.length ≤ _
  omega

/-- **One notification**: a consumer is woken, or none waits. Either way there is one wake-up
more than is needed. -/
theorem Inv.notifyOne (h : Inv nProducers nConsumers s) {woken : Option ℕ}
    (hs : notifyOne nConsumers s woken = some s') :
    s'.producer = s.producer ∧ s'.InOrder ∧ ((∃ c < nConsumers, s'.consumer c = .wait) →
      s'.buffer.length + 1 ≤ s'.wakeUps nProducers nConsumers) := by
  cases woken with
  | some c =>
      simp only [Queue.notifyOne] at hs
      split at hs
      · rename_i hc
        cases hs
        refine ⟨rfl, h.order, fun _ => ?_⟩
        have hcovered := h.covered ⟨c, hc⟩
        have hmove := wakeUps_goConsumer nProducers hc.1 s .lock
        rw [hc.2, if_neg (by simp), if_pos rfl] at hmove
        show s.buffer.length + 1 ≤ _
        omega
      · cases hs
  | none =>
      simp only [Queue.notifyOne] at hs
      split at hs
      · rename_i hnone
        cases hs
        refine ⟨rfl, h.order, ?_⟩
        rintro ⟨c, hc, hwait⟩
        exact absurd hwait (hnone c hc)
      · cases hs

/-- The producer has issued a notification and goes on. -/
theorem Inv.notified (h : Inv nProducers nConsumers s) {p : ℕ} (hp : p < nProducers)
    {pc : ProducerPc} (hcome : (s.producer p).toCome ≤ pc.toCome + 1) {woken : Option ℕ}
    (hs : (Queue.notifyOne nConsumers s woken).map (fun t => t.goProducer p pc) = some s') :
    Inv nProducers nConsumers s' := by
  obtain ⟨t, ht, rfl⟩ := Option.map_eq_some_iff.mp hs
  obtain ⟨hproducer, horder, hcovered⟩ := h.notifyOne ht
  refine ⟨horder, fun hwaiting => ?_⟩
  have hmore := hcovered hwaiting
  have hmove := wakeUps_goProducer nConsumers hp t pc
  rw [hproducer] at hmove
  show t.buffer.length ≤ _
  omega

/-- The counter of the loop may wrap; then there is more to come. -/
theorem toCome_succ (i : BitVec 32) (size : ℕ) :
    (ProducerPc.notifyBatch i size).toCome ≤ (ProducerPc.notifyBatch (i + 1) size).toCome + 1 := by
  have hle : (i + 1).toNat ≤ i.toNat + 1 := by
    rw [BitVec.toNat_add]
    exact Nat.mod_le _ _
  show size - i.toNat ≤ size - (i + 1).toNat + 1
  omega

theorem notifyStep_inv (h : Inv nProducers nConsumers s) {p : ℕ} (hp : p < nProducers)
    {woken : Option ℕ} (hs : notifyStep nConsumers s p woken = some s') :
    Inv nProducers nConsumers s' := by
  rcases hpc : s.producer p with _ | _ | ⟨i, size⟩
  · simp only [notifyStep, hpc] at hs
    cases hs
  · simp only [notifyStep, hpc] at hs
    refine h.notified hp ?_ hs
    rw [hpc]
    exact le_refl 1
  · simp only [notifyStep, hpc] at hs
    split at hs
    · refine h.notified hp ?_ hs
      rw [hpc]
      exact toCome_succ i size
    · cases hs

theorem endBatchStep_inv (h : Inv nProducers nConsumers s) {p : ℕ} (hp : p < nProducers)
    (hs : endBatchStep s p = some s') : Inv nProducers nConsumers s' := by
  rcases hpc : s.producer p with _ | _ | ⟨i, size⟩
  · simp only [endBatchStep, hpc] at hs
    cases hs
  · simp only [endBatchStep, hpc] at hs
    cases hs
  · simp only [endBatchStep, hpc] at hs
    split at hs
    · cases hs
    · rename_i hdone
      cases hs
      have hzero : (s.producer p).toCome = 0 := by
        rw [hpc]
        exact Nat.sub_eq_zero_of_le (Nat.le_of_not_lt hdone)
      refine ⟨h.order, fun hwaiting => ?_⟩
      have hcovered := h.covered hwaiting
      have hmove := wakeUps_goProducer nConsumers hp s .away
      show s.buffer.length ≤ _
      omega

/-- **The critical section of `pop`** uses up one wake-up, for one value or for none. -/
theorem popStep_inv (h : Inv nProducers nConsumers s) {c : ℕ} (hc : c < nConsumers)
    (hs : popStep s c = some s') : Inv nProducers nConsumers s' := by
  unfold popStep at hs
  split at hs
  · rename_i hlock
    rcases hbuffer : s.buffer with _ | ⟨value, rest⟩
    · rw [hbuffer] at hs
      cases hs
      refine ⟨h.order, fun _ => ?_⟩
      show s.buffer.length ≤ _
      rw [hbuffer]
      exact Nat.zero_le _
    · rw [hbuffer] at hs
      cases hs
      constructor
      · show s.pushed = (s.popped ++ [(c, value)]).map Prod.snd ++ rest
        rw [h.order, hbuffer, List.map_append, List.append_assoc]
        rfl
      · intro hwaiting
        have hcovered := h.covered (waiting_of_goConsumer (s := { s with
          buffer := rest, popped := s.popped ++ [(c, value)] }) (by simp) hwaiting)
        have hmove := wakeUps_goConsumer nProducers hc { s with
          buffer := rest, popped := s.popped ++ [(c, value)] } .away
        have hsame : State.wakeUps nProducers nConsumers { s with
          buffer := rest, popped := s.popped ++ [(c, value)] } =
            s.wakeUps nProducers nConsumers := rfl
        rw [hbuffer, List.length_cons] at hcovered
        rw [if_pos hlock, if_neg (by simp)] at hmove
        show rest.length ≤ _
        omega
  · cases hs

theorem step_inv {act : Act} (h : Inv nProducers nConsumers s)
    (hs : step nProducers nConsumers s act = some s') : Inv nProducers nConsumers s' := by
  cases act with
  | push p value =>
      simp only [step] at hs
      split at hs
      · rename_i hp
        cases hs
        exact h.append hp.1 hp.2 (le_refl 1)
      · cases hs
  | pushBatch p values =>
      simp only [step] at hs
      split at hs
      · rename_i hp
        cases hs
        exact h.append hp.1 hp.2 (Nat.sub_zero _).ge
      · cases hs
  | notify p woken =>
      simp only [step] at hs
      split at hs
      · rename_i hp
        exact notifyStep_inv h hp hs
      · cases hs
  | endBatch p =>
      simp only [step] at hs
      split at hs
      · rename_i hp
        exact endBatchStep_inv h hp hs
      · cases hs
  | callPop c =>
      simp only [step] at hs
      split at hs
      · rename_i hc
        cases hs
        exact h.goLock hc.1 (by rw [hc.2]; simp)
      · cases hs
  | pop c =>
      simp only [step] at hs
      split at hs
      · rename_i hc
        exact popStep_inv h hc hs
      · cases hs
  | spurious c =>
      simp only [step] at hs
      split at hs
      · rename_i hc
        cases hs
        exact h.goLock hc.1 (by rw [hc.2]; simp)
      · cases hs

end

/-- **The queue is first in, first out, and loses no wake-up.** For any number of producers and
consumers and every interleaving of their steps: the values popped so far are the first that
were pushed, in this order, each once; and whenever the buffer holds a value and a consumer is
blocked, another consumer is on its way to the buffer or a notification is still to come. In
particular the consumers are never all blocked with a value in the buffer and no notification
to come. -/
theorem fifo_and_no_lost_wakeup (nProducers nConsumers : ℕ) (s : State)
    (h : (system nProducers nConsumers).Reachable s) :
    s.InOrder ∧ ¬ s.Lost nProducers nConsumers := by
  have hinv : Inv nProducers nConsumers s := by
    apply h.invariant
    · rintro _ rfl
      exact initial_inv
    · exact fun _ _ _ hi _ hs => step_inv hi hs
  exact ⟨hinv.order, hinv.not_lost⟩

/-- A notification that comes late: another consumer has taken the value, and the woken one
blocks again, until a batch comes. -/
def lateNotification : List Act :=
  [.callPop 0, .pop 0, .push 0 5, .callPop 1, .pop 1, .notify 0 (some 0), .pop 0,
    .pushBatch 0 [6, 7], .notify 0 (some 0), .notify 0 none, .pop 0]

theorem fifo_and_no_lost_wakeup_late :
    ∃ s, (system 1 2).Reachable s ∧ s.popped = [(1, 5), (0, 6)] ∧ s.buffer = [7] ∧
      s.InOrder ∧ ¬ s.Lost 1 2 := by
  have h0 : (system 1 2).Reachable initial := .init rfl
  have hs := h0.run lateNotification rfl
  exact ⟨_, hs, rfl, rfl, fifo_and_no_lost_wakeup 1 2 _ hs⟩

end Coroutines.ThreadPool.Queue
