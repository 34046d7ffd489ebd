import Coroutines.Pipes.IoContext

/-!
# The interest of a registered pipe

`set_awaiter` modifies the entry of a descriptor with an `epoll_event` whose mask is zero, and
epoll replaces the mask with the pointer. The interest that the pipe was registered with is gone
from its first await on: a coroutine that is suspended on a pipe is not told when the pipe becomes
readable or writable.
-/

namespace Coroutines.Pipes

open Transition Epoll

/-- The event of the interest is among these. -/
def IoInterest.among (interest : IoInterest) (events : Events) : Bool :=
  match interest with
  | .read => events.input
  | .write => events.output

/-- A coroutine is suspended in `read_some` or `write_some` on a pipe that is registered. -/
def State.SuspendedOn (s : State) (w : Await) : Prop :=
  s.awaiting w.awaiter = .suspended w ∧ s.pipes w.pipe.fd = some w.pipe

/-- Whenever the pipe that a coroutine is suspended on becomes readable, or writable, epoll
reports the descriptor for that, with the awaiter of the coroutine. -/
def State.Delivers (s : State) : Prop :=
  ∀ w, s.SuspendedOn w → ∀ ready : Events, w.pipe.interest.among ready = true →
    ∃ e, s.epollInstance.report w.pipe.fd ready = some e ∧
      w.pipe.interest.among e.events = true ∧ e.data = some w.awaiter

/-- A coroutine waits on a pipe, which then becomes readable. -/
def readAwaited : List Act :=
  [.registerHandle 0 .read, .readSome 8 0]

theorem not_delivers_to_reader : ¬ ∀ s, system.Reachable s → s.Delivers := by
  intro h
  have h0 : system.Reachable (initial 1) := .init ⟨1, Nat.le_refl 1, rfl⟩
  obtain ⟨e, he, -⟩ := h _ (h0.run readAwaited rfl) ⟨⟨0, .read, 0⟩, 8, 0⟩ ⟨rfl, rfl⟩
    { input := true } rfl
  cases he

/-- An entry on which a coroutine is suspended has no interest. -/
theorem Consistent.events_eq {s : State} (h : Consistent s) {w : Await} (hw : s.SuspendedOn w) :
    ∃ e, s.epollInstance w.pipe.fd = some e ∧ e.events = {} := by
  obtain ⟨hpc, hpipe⟩ := hw
  obtain ⟨e, he, hdata, hmask⟩ := (h.listed w.pipe.fd w.pipe hpipe).entry
  have hcurrent := h.current w.awaiter w (by rw [hpc]; rfl)
  refine ⟨e, he, hmask ?_⟩
  rw [hdata]
  intro hnone
  have hlatest := List.find?_eq_none.mp (Option.map_eq_none_iff.mp hnone) w hcurrent.mem
  simp at hlatest

/-- **Nothing is delivered to a suspended coroutine.** In every reachable state, the readiness of
pipes is delivered to the coroutines suspended on them exactly when there is none; as soon as
there is one, no readiness of its pipe is reported. -/
theorem delivers_iff_none_suspended (s : State) (h : system.Reachable s) :
    (s.Delivers ↔ ∀ w, ¬ s.SuspendedOn w) ∧
      ∀ w, s.SuspendedOn w → ∀ ready : Events, ready.hangUp = false → ready.error = false →
        s.epollInstance.report w.pipe.fd ready = none := by
  have hconsistent := reachable_consistent h
  have hmute : ∀ w, s.SuspendedOn w → ∀ ready : Events, ready.hangUp = false →
      ready.error = false → s.epollInstance.report w.pipe.fd ready = none := by
    intro w hw ready hup herr
    obtain ⟨e, he, hmask⟩ := hconsistent.events_eq hw
    exact Table.report_none_of_masked he hmask hup herr
  refine ⟨⟨fun hdelivers w hw => ?_, fun hnone w hw => absurd hw (hnone w)⟩, hmute⟩
  have hready : w.pipe.interest.among w.pipe.interest.eventFlags = true := by
    cases w.pipe.interest <;> rfl
  obtain ⟨e, he, -⟩ := hdelivers w hw _ hready
  have hsilent : s.epollInstance.report w.pipe.fd w.pipe.interest.eventFlags = none := by
    apply hmute w hw <;> cases w.pipe.interest <;> rfl
  rw [hsilent] at he
  cases he

theorem delivers_iff_none_suspended_registered :
    ∃ s, system.Reachable s ∧ s.pipes 0 = some ⟨0, .read, 0⟩ ∧
      (s.Delivers ↔ ∀ w, ¬ s.SuspendedOn w) := by
  have h0 : system.Reachable (initial 1) := .init ⟨1, Nat.le_refl 1, rfl⟩
  have hs := h0.run readAwaited rfl
  exact ⟨_, hs, rfl, (delivers_iff_none_suspended _ hs).1⟩

end Coroutines.Pipes
