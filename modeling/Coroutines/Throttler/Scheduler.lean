import Coroutines.Throttler
import Coroutines.Lib.Transition

/-!
# The queue of the scheduler

`applications/map/scheduler.hpp`, and `scheduler_queue` of `applications/binary-search/
coro_infra.hpp`, which is the same ring under other names. The two positions cannot tell a ring
that is exactly full from an empty one, and `run` stops at what it takes for the end.

Calls come in any order here: a coroutine that `run` resumes may schedule and remove handles and
call `run` itself before it returns. The client keeps the number of pending handles within the
depth, and removes a handle only when there is one.
-/

namespace Coroutines.Throttler.StaticQueueScheduler

open Transition

/-! ## The model -/

structure State where
  ring : StaticQueueScheduler
  /-- The calls of `run` that have not returned. -/
  runs : ℕ
  /-- History: the handles that were scheduled, and those that came out. -/
  scheduled : List ℕ
  removed : List (Option ℕ)
  /-- History: how many handles were pending at each return of `run`. -/
  left : List ℕ

inductive Act
  | schedule (handle : ℕ)
  | remove
  | run          -- `run` is called
  | test         -- the innermost `run` asks for the next task, and resumes it
deriving DecidableEq

/-- What was scheduled and has not come out. -/
def State.pending (s : State) : List ℕ := s.scheduled.drop s.removed.length

def initial (queueDepth : ℕ) (hpos : 0 < queueDepth) : State where
  ring := RingBuffer.new queueDepth hpos
  runs := 0
  scheduled := []
  removed := []
  left := []

/-- One round of `while (auto handle = try_remove_next_task())`. -/
def testStep (s : State) : Option State :=
  if s.runs = 0 then none
  else
    match tryRemoveNextTask s.ring with
    | (some handle, ring) =>
        some { s with ring := ring, removed := s.removed ++ [some handle] }
    | (none, ring) =>
        some { s with ring := ring, runs := s.runs - 1, left := s.left ++ [s.pending.length] }

def step (s : State) : Act → Option State
  | .schedule handle =>
      if s.pending.length < s.ring.depth then
        some { s with
          ring := schedule s.ring handle
          scheduled := s.scheduled ++ [handle] }
      else none
  | .remove =>
      if s.pending = [] then none
      else
        let (handle, ring) := removeNextTask s.ring
        some { s with ring := ring, removed := s.removed ++ [handle] }
  | .run => some { s with runs := s.runs + 1 }
  | .test => testStep s

def system : System State Act where
  Init s := ∃ queueDepth hpos, s = initial queueDepth hpos
  step := step

/-! ## What the queue promises -/

/-- Handles come out in the order they were scheduled, each once, and `run` returns only when
none is pending. -/
structure State.Orderly (s : State) : Prop where
  order : s.removed = (s.scheduled.take s.removed.length).map some
  drained : ∀ n ∈ s.left, n = 0

/-- A queue of one slot, one handle, and `run`. -/
def runAtDepth : List Act := [.schedule 5, .run, .test]

theorem not_orderly_after_full_run : ¬ ∀ s, system.Reachable s → s.Orderly := by
  intro h
  have hr : system.Reachable (initial 1 (by decide)) := .init ⟨1, by decide, rfl⟩
  have horderly := h _ (hr.run runAtDepth rfl)
  exact absurd (horderly.drained 1 (by decide)) (by decide)

/-! ## Short of a full queue -/

/-- When `run` asks for the next task, the queue is not full. -/
def Roomy (s : State) : Act → Prop
  | .test => s.pending.length < s.ring.depth
  | _ => True

/-- The ring holds what is pending. -/
structure Inv (s : State) : Prop where
  holds : s.ring.Holds s.pending
  order : s.scheduled.map some = s.removed ++ s.pending.map some
  drained : ∀ n ∈ s.left, n = 0

theorem initial_inv (queueDepth : ℕ) (hpos : 0 < queueDepth) : Inv (initial queueDepth hpos) where
  holds := RingBuffer.holds_nil rfl
  order := rfl
  drained _ hn := absurd hn List.not_mem_nil

/-- Once the handles that came out are known, the others are pending. -/
theorem pending_of_order {s : State} {l : List ℕ}
    (h : s.scheduled.map some = s.removed ++ l.map some) : s.pending = l := by
  have hdrop := congrArg (List.drop s.removed.length) h
  rw [List.drop_left, ← List.map_drop] at hdrop
  exact List.map_injective_iff.mpr (Option.some_injective ℕ) hdrop

theorem Inv.of_holds {s : State} {l : List ℕ} (hholds : s.ring.Holds l)
    (horder : s.scheduled.map some = s.removed ++ l.map some) (hdrained : ∀ n ∈ s.left, n = 0) :
    Inv s := by
  obtain rfl := pending_of_order horder
  exact ⟨hholds, horder, hdrained⟩

theorem Inv.orderly {s : State} (h : Inv s) : s.Orderly where
  order := by
    have htake := congrArg (List.take s.removed.length) h.order
    rw [List.take_left, ← List.map_take] at htake
    exact htake.symm
  drained := h.drained

/-- **A handle that is scheduled** is the last of the pending ones. -/
theorem Inv.schedule {s : State} (h : Inv s) {handle : ℕ}
    (hroom : s.pending.length < s.ring.depth) :
    Inv { s with
      ring := schedule s.ring handle
      scheduled := s.scheduled ++ [handle] } := by
  have horder : (s.scheduled ++ [handle]).map some =
      s.removed ++ (s.pending ++ [handle]).map some := by
    rw [List.map_append, List.map_append, h.order, List.append_assoc]
  exact Inv.of_holds (h.holds.push hroom handle) horder h.drained

/-- **The first pending handle comes out.** -/
theorem Inv.remove {s : State} (h : Inv s) {handle : ℕ} {rest : List ℕ}
    (hpending : s.pending = handle :: rest) :
    ∃ ring, removeNextTask s.ring = (some handle, ring) ∧
      Inv { s with ring := ring, removed := s.removed ++ [some handle] } := by
  have hholds := h.holds
  have horder := h.order
  rw [hpending] at hholds horder
  obtain ⟨ring, hpop, hrest, -⟩ := hholds.pop
  refine ⟨ring, hpop, Inv.of_holds hrest ?_ h.drained⟩
  rw [horder, List.map_cons, List.append_assoc]
  rfl

/-- With room left, `run` sees the pending handles as they are. -/
theorem testStep_inv {s s' : State} (h : Inv s) (hroom : s.pending.length < s.ring.depth)
    (hs : testStep s = some s') : Inv s' := by
  unfold testStep at hs
  split at hs
  · cases hs
  · rcases hpending : s.pending with _ | ⟨handle, rest⟩
    · have hholds := h.holds
      rw [hpending] at hholds
      have htry : tryRemoveNextTask s.ring = (none, s.ring) := hholds.tryPop_nil
      rw [htry] at hs
      cases hs
      refine ⟨h.holds, h.order, fun n hn => ?_⟩
      rcases List.mem_append.mp hn with hn | hn
      · exact h.drained n hn
      · rw [List.mem_singleton.mp hn, hpending]
        rfl
    · obtain ⟨ring, hremove, hinv⟩ := h.remove hpending
      have hholds := h.holds
      rw [hpending] at hholds hroom
      have htry : tryRemoveNextTask s.ring = (some handle, ring) :=
        (hholds.tryPop_cons hroom).trans hremove
      rw [htry] at hs
      cases hs
      exact hinv

theorem step_inv {s s' : State} {act : Act} (h : Inv s) (hok : Roomy s act)
    (hs : step s act = some s') : Inv s' := by
  cases act with
  | schedule handle =>
      simp only [step] at hs
      split at hs
      · rename_i hroom
        cases hs
        exact h.schedule hroom
      · cases hs
  | remove =>
      simp only [step] at hs
      split at hs
      · cases hs
      · rename_i hne
        obtain ⟨handle, rest, hpending⟩ := List.exists_cons_of_ne_nil hne
        obtain ⟨ring, hremove, hinv⟩ := h.remove hpending
        rw [hremove] at hs
        cases hs
        exact hinv
  | run =>
      cases hs
      exact ⟨h.holds, h.order, h.drained⟩
  | test => exact testStep_inv h hok hs

/-- A full queue is taken for an empty one, and `run` returns. -/
theorem Inv.test_full {s s' : State} (h : Inv s) (hfull : ¬ s.pending.length < s.ring.depth)
    (hs : testStep s = some s') : ¬ s'.Orderly := by
  have hlength : s.pending.length = s.ring.depth :=
    Nat.le_antisymm h.holds.length (Nat.le_of_not_lt hfull)
  have htry : tryRemoveNextTask s.ring = (none, s.ring) := h.holds.tryPop_full hlength
  unfold testStep at hs
  split at hs
  · cases hs
  · rw [htry] at hs
    cases hs
    intro horderly
    have hzero := horderly.drained s.pending.length (by simp)
    rw [hlength] at hzero
    exact Nat.ne_of_gt s.ring.depth_pos hzero

/-- **The queue keeps its promises exactly while `run` never finds it full.** For every depth and
every sequence of calls that keeps the pending handles within it: as long as `run` asks for the
next task of a queue with room left, handles come out in the order they were scheduled, each once,
and `run` returns with none pending; and the first time it asks a full queue, it returns with
all of them pending. -/
theorem orderly_iff_roomy (s : State) (h : system.ReachableUnder Roomy s) :
    s.Orderly ∧ ∀ act t, step s act = some t → ¬ Roomy s act → ¬ t.Orderly := by
  have hinv : Inv s := by
    apply h.invariant
    · rintro _ ⟨queueDepth, hpos, rfl⟩
      exact initial_inv queueDepth hpos
    · exact fun _ _ _ hi hok hs => step_inv hi hok hs
  refine ⟨hinv.orderly, fun act t hs hnot => ?_⟩
  cases act with
  | test => exact hinv.test_full hnot hs
  | _ => exact absurd trivial hnot

/-- A full queue of two slots is emptied by `remove_next_task`, one handle comes back round the
end, and `run` takes the last. -/
def removedBeforeRun : List Act :=
  [.schedule 5, .schedule 6, .remove, .schedule 7, .remove, .run, .test, .test]

theorem orderly_iff_roomy_removed_before :
    ∃ s, system.ReachableUnder Roomy s ∧ s.removed = [some 5, some 6, some 7] ∧
      s.left = [0] ∧ s.Orderly := by
  have hm : system.Meets Roomy (initial 2 (by decide)) removedBeforeRun :=
    ⟨trivial, _, rfl, trivial, _, rfl, trivial, _, rfl, trivial, _, rfl, trivial, _, rfl,
      trivial, _, rfl, Nat.one_lt_two, _, rfl, Nat.zero_lt_two, _, rfl, trivial⟩
  have h0 : system.ReachableUnder Roomy (initial 2 (by decide)) := .init ⟨2, by decide, rfl⟩
  have hs := h0.run hm rfl
  exact ⟨_, hs, rfl, rfl, (orderly_iff_roomy _ hs).1⟩

end Coroutines.Throttler.StaticQueueScheduler
