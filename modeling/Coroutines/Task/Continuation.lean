import Coroutines.Task.Suspension

/-!
# The awaiting coroutine goes on, and with what

Of the two exchanges of the flag the second one lets the awaiting coroutine go on, and
by then the result is in the promise. That takes a body that whoever resumes it finds suspended.
-/

namespace Coroutines.Task

open Transition

variable {V E : Type} {P : PromiseType V E}

/-- The result of a body that is done is in its promise. -/
theorem Frame.Handoff.awaitResume {i : ℕ} {f : Frame P} (h : f.Handoff i)
    (hd : f.body.done = true) : ∃ c, f.completed = some c ∧ f.awaitResume = .ofBody c := by
  have hb : f.body ≠ .absent := by
    intro hb
    rw [hb] at hd
    cases hd
  cases hc : f.completed with
  | none =>
      have := (h.pending hc).2
      rw [hd] at this
      cases this
  | some c =>
      refine ⟨c, rfl, ?_⟩
      rw [Frame.awaitResume, if_neg hb, (h.filled c hc).1, P.result_complete]

end Coroutines.Task
