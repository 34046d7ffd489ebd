import Coroutines.TimerQueue.Order

/-!
# The queue with critical sections of one step

What a thread does between its wait for the mutex and the release is one step here: to push an
object, or to look at the buffer and take the first object if there is one. As long as no APC runs
in a wait for the mutex, a run of the queue is a run of this one, but for steps that only one
thread can tell.
-/

namespace Coroutines.TimerQueue

open Transition System Function

variable {T : Type}

/-! ## The atomic queue -/

/-- What a call has left to do. -/
inductive Stage (T : Type)
  | push (obj : T)
  | setEvent
  | pop
  | wait
  | tryPop
  | returned (popped : Option T)

@[ext]
structure Atomic (T : Type) where
  buffer : List T
  nonEmpty : Bool
  /-- What each thread is in, the innermost layer first; `none` is an APC. -/
  layers : ℕ → List (Option (Stage T))

namespace Atomic

variable (s : Atomic T) (t : ℕ)

def setLayers (k : List (Option (Stage T))) : Atomic T :=
  { s with layers := update s.layers t k }

/-- A call on top of `below` goes on. -/
def go (below : List (Option (Stage T))) : Stage T → Option (Atomic T)
  | .push obj =>
      some ({ s with buffer := s.buffer ++ [obj] }.setLayers t (some .setEvent :: below))
  | .setEvent => some ({ s with nonEmpty := true }.setLayers t below)
  | .pop =>
      match s.buffer with
      | [] => some (s.setLayers t (some .wait :: below))
      | x :: rest =>
          some ({ s with buffer := rest }.setLayers t (some (.returned (some x)) :: below))
  | .wait => if s.nonEmpty then some (s.setLayers t (some .pop :: below)) else none
  | .tryPop =>
      match s.buffer with
      | [] => some (s.setLayers t (some (.returned none) :: below))
      | x :: rest =>
          some ({ s with buffer := rest }.setLayers t (some (.returned (some x)) :: below))
  | .returned _ => some (s.setLayers t below)

end Atomic

def Op.stage : Op T → Stage T
  | .push obj => .push obj
  | .pop => .pop
  | .tryPop => .tryPop

def Atomic.step (s : Atomic T) : Act T → Option (Atomic T)
  | .call t op _ =>
      match s.layers t with
      | some _ :: _ => none
      | below => some (s.setLayers t (some op.stage :: below))
  | .go t =>
      match s.layers t with
      | some stage :: below => s.go t below stage
      | _ => none
  | .apc t =>
      match s.layers t with
      | some .wait :: below => some (s.setLayers t (none :: some .wait :: below))
      | _ => none
  | .apcReturn t =>
      match s.layers t with
      | none :: some .wait :: below => some (s.setLayers t (some .pop :: below))
      | _ => none

def Atomic.initial : Atomic T where
  buffer := []
  nonEmpty := false
  layers := fun _ => []

def Call.stage (c : Call T) : Stage T :=
  match c.op with
  | .push obj => if c.pc = .unlocking ∨ c.pc = .setting then .setEvent else .push obj
  | .pop =>
      match c.pc with
      | .signalling | .waiting => .wait
      | .unlocking => .returned c.popped
      | _ => .pop
  | .tryPop => if c.pc = .unlocking then .returned c.popped else .tryPop

def Layer.stage : Layer T → Option (Stage T)
  | .call c => some c.stage
  | .apc => none

section
variable {s s' : State T} {pushed : List T} {t : ℕ} {k below : List (Layer T)} {c c' : Call T}

end

end Coroutines.TimerQueue
