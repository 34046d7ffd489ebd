import Coroutines.TimerQueue.Atomic
import Coroutines.TimerService.Basic

/-!
# The requests on their queue

The posts and the worker of the timer service use the queue as its atomic form allows: thread zero
is the worker, and each post has a thread of its own. A worker that arms a request has it from a
`pop` or `try_pop` that is about to return, and `on_shutdown_request` runs as an APC in the wait
of `pop`.
-/

namespace Coroutines.TimerService

open Transition TimerQueue Function

/-! ## What the service shows of its queue -/

def WorkerPc.layers : WorkerPc → List (Option (Stage ℕ))
  | .pop => [some .pop]
  | .wait => [some .wait]
  | .arm r => [some (.returned (some r))]
  | .drain => [some .tryPop, none, some .wait]
  | .drainArm r => [some (.returned (some r)), none, some .wait]
  | .loadInflight | .sleep | .exited => [none, some .wait]

def PostPc.layers (r : ℕ) : PostPc → List (Option (Stage ℕ))
  | .push => [some (.push r)]
  | .setEvent => [some .setEvent]
  | _ => []

def State.queue (s : State) : Atomic ℕ where
  buffer := s.requests
  nonEmpty := s.nonEmpty
  layers
    | 0 => s.worker.layers
    | r + 1 => (s.posts[r]?).elim [] (PostPc.layers r)

section
variable {s s' : State} {r : ℕ}

end

/-! ## Each step of the service -/

section
variable {q q' : Atomic ℕ} {t : ℕ} {below : List (Option (Stage ℕ))}

end

/-- The worker is in a wait for the mutex, or on its way there. -/
def WorkerPc.locking (pc : WorkerPc) : Bool := pc = .pop ∨ pc = .drain

/-- A request is pushed while the worker waits, and the shutdown drains it. -/
def pushedWhileWaiting : List Act :=
  [.work, .post 0, .post 0, .post 0, .shutdown, .shutdown, .apc, .work]

end Coroutines.TimerService
