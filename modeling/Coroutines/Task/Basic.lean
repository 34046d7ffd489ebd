import Coroutines.Lib.Transition
import Mathlib.Data.Nat.Notation

/-!
# Tasks, the coroutines that await them, and the resumers of their bodies

`libcoro/task.hpp` and `libcoro/eager_task.hpp`, and `algorithms/when-all/task_scheduler.hpp`.
Their comments tell the two task types apart by the `initial_suspend` of the promise, which
returns `suspend_never` in both; a lazy task is one that starts as these comments say.

Three parties hold a handle to the frame of a task: the coroutine that awaits it, the
resumers its body handed the handle to, and the body itself at its final suspend. There
is a task for each `i : ℕ`, of any kind, and one coroutine that awaits it; the members
of a list given to `when_all` are awaited by one coroutine each. Every act is one
access to shared state, so the tasks may run on any threads.

To resume a coroutine that is running, or is at its final suspend, or to resume an
empty handle, is undefined: such a run ends in a fault.
-/

namespace Coroutines.Task

open Transition Function

/-! ## The promise -/

/-- What `await_resume` comes to. -/
inductive Outcome (V E : Type)
  | value (v : V)
  | exception (e : E)
  | brokenPromise   -- there is no coroutine behind the task
  | emptyResult     -- the assertion in `result`
deriving DecidableEq

/-- How a body completed, as `await_resume` should report it. -/
def Outcome.ofBody {V E : Type} : Except E V → Outcome V E
  | .ok v => .value v
  | .error e => .exception e

/-- The result of a promise: how the body fills it and how `result` reads it. -/
structure PromiseType (V E : Type) where
  Result : Type
  empty : Result
  /-- `return_value`, `return_void`. -/
  returned : V → Result → Result
  unhandledException : E → Result → Result
  result : Result → Outcome V E
  result_returned : ∀ v, result (returned v empty) = .value v
  result_unhandledException : ∀ e, result (unhandledException e empty) = .exception e

variable {V E : Type}

/-- `task_promise<T>::ResultType`, with the member of the union that it tells of. -/
inductive ResultType (V E : Type)
  | empty
  | value (v : V)
  | exception (e : E)

def ResultType.result : ResultType V E → Outcome V E
  | .exception e => .exception e
  | .value v => .value v
  | .empty => .emptyResult

/-- `task_promise<T>`. -/
def taskPromise (V E : Type) : PromiseType V E where
  Result := ResultType V E
  empty := .empty
  returned v _ := .value v
  unhandledException e _ := .exception e
  result := ResultType.result
  result_returned _ := rfl
  result_unhandledException _ := rfl

/-- `task_promise<void>`, which holds nothing but an `exception_ptr`. -/
def voidTaskPromise (E : Type) : PromiseType Unit E where
  Result := Option E
  empty := none
  returned _ exception := exception
  unhandledException e _ := some e
  result exception := match exception with
    | some e => .exception e
    | none => .value ()
  result_returned _ := rfl
  result_unhandledException _ := rfl

variable (P : PromiseType V E)

def PromiseType.complete (r : P.Result) : Except E V → P.Result
  | .ok v => P.returned v r
  | .error e => P.unhandledException e r

theorem PromiseType.result_complete (c : Except E V) :
    P.result (P.complete P.empty c) = .ofBody c := by
  cases c with
  | ok v => exact P.result_returned v
  | error e => exact P.result_unhandledException e

/-! ## Frames -/

/-- What a task is made from. -/
inductive Kind
  | empty   -- default constructed or moved from: the handle is null
  | lazy    -- suspended at first, as the comments have it for `task`
  | eager   -- `eager_task`, and `task` as it is
deriving DecidableEq

/-- Whose `resume` the body is running in. -/
inductive Caller
  | creation    -- the call that makes an eager task
  | owner       -- `task::resume`
  | awaiter     -- `awaitable_base::await_suspend`
  | scheduler   -- `task_scheduler::run`
  | resumer     -- anyone else that was handed the handle
deriving DecidableEq

/-- Where the body of a task stands, with the number of suspension points behind it. -/
inductive Body
  | absent
  | initial
  | running (k : ℕ) (caller : Caller)
  | suspended (k : ℕ)
  | exchange (k : ℕ) (caller : Caller)   -- at its final suspend, before the exchange
  | resume (k : ℕ) (caller : Caller)     -- the exchange returned true
  | finished (k : ℕ)
deriving DecidableEq

/-- `coroutine_handle::done`. -/
def Body.done : Body → Bool
  | .exchange .. | .resume .. | .finished _ => true
  | _ => false

/-- The suspension points that are behind the body. -/
def Body.reached : Body → ℕ
  | .absent | .initial => 0
  | .running k _ | .suspended k | .exchange k _ | .resume k _ | .finished k => k

/-- The call the body is running in. -/
def Body.caller : Body → Option Caller
  | .running _ c | .exchange _ c | .resume _ c => some c
  | _ => none

/-- Where the awaiting coroutine stands in its `co_await`. -/
inductive AwaiterPc
  | idle                -- before `await_ready`
  | resume              -- in `await_suspend`, before `coro_handle.resume()`
  | inResume
  | storeContinuation   -- in `try_set_continuation`
  | exchange
  | suspended
  | continued
deriving DecidableEq

/-- How the awaiting coroutine came to go on. -/
inductive Route
  | ready                     -- `await_ready` returned true
  | notSuspended              -- `await_suspend` returned false
  | finalSuspendOf (i : ℕ)    -- resumed as the continuation of task `i`
deriving DecidableEq

/-- A task: its frame, its promise and the coroutine that awaits it. -/
structure Frame where
  body : Body
  result : P.Result
  /-- `promise.state`. -/
  state : Bool
  /-- `promise.continuation_handle`, as the task whose awaiting coroutine it refers to. -/
  continuation : Option ℕ
  awaiter : AwaiterPc
  /-- History: each suspension point passed, with the point for which whoever resumed
  the body there had been handed the handle. -/
  passes : List (ℕ × Option ℕ)
  /-- History: how the body completed. -/
  completed : Option (Except E V)
  /-- History: each time the awaiting coroutine went on. -/
  routes : List Route

/-- What is undefined about a call of `coroutine_handle::resume`. -/
inductive Fault
  | nullHandle
  | running (i : ℕ)
  | finished (i : ℕ)
deriving DecidableEq

variable {P}

/-- `initial_suspend` and what comes before it. -/
def Frame.initial (P : PromiseType V E) (kind : Kind) : Frame P where
  body := match kind with
    | .empty => .absent
    | .lazy => .initial
    | .eager => .running 0 .creation
  result := P.empty
  state := false
  continuation := none
  awaiter := .idle
  passes := []
  completed := none
  routes := []

/-- `awaitable_base::await_ready`. -/
def Frame.awaitReady (f : Frame P) : Bool :=
  f.body = .absent || f.body.done

/-- `await_resume` of the awaitable. -/
def Frame.awaitResume (f : Frame P) : Outcome V E :=
  if f.body = .absent then .brokenPromise else P.result f.result

/-- `coroutine_handle::resume`, by a caller that holds the handle for a point. -/
def Frame.resume (f : Frame P) (i : ℕ) (caller : Caller) (point : Option ℕ) :
    Except Fault (Frame P) :=
  match f.body with
  | .absent => .error .nullHandle
  | .initial => .ok { f with body := .running 0 caller }
  | .suspended k => .ok { f with
      body := .running (k + 1) caller
      passes := f.passes ++ [(k, point)] }
  | .running .. => .error (.running i)
  | .exchange .. | .resume .. | .finished _ => .error (.finished i)

/-- The body gives control back: the `resume` it was running in returns. -/
def Frame.giveBack (f : Frame P) (caller : Caller) : Frame P :=
  if caller = .awaiter then { f with awaiter := .storeContinuation } else f

/-! ## The system -/

/-- A handle to the frame of a task, handed out at a suspension point. -/
structure Handle where
  task : ℕ
  point : ℕ
deriving DecidableEq

/-- Where `task_scheduler::run` stands in its loop. -/
inductive RunPc
  | front
  | inResume   -- in `tasks.front().resume()`
  | pop
deriving DecidableEq

variable (P)

structure State where
  frame : ℕ → Frame P
  /-- `task_scheduler::tasks`. -/
  tasks : List Handle
  run : RunPc
  /-- The handles that other resumers hold. -/
  held : List Handle
  fault : Option Fault

/-- What moves next. -/
inductive Act (V E : Type)
  | start (i : ℕ)                            -- `task::resume` on a task not started yet
  | suspend (i : ℕ) (deferred : Bool)        -- at `co_await defer_on(scheduler)`, or elsewhere
  | complete (i : ℕ) (c : Except E V)
  | finalSuspend (i : ℕ)
  | await (i : ℕ)
  | runFront
  | runPop
  | resumer (n : ℕ)                          -- the `n`-th of the other handles

variable {P}

def initial (P : PromiseType V E) (kind : ℕ → Kind) : State P where
  frame i := Frame.initial P (kind i)
  tasks := []
  run := .front
  held := []
  fault := none

def State.set (s : State P) (i : ℕ) (f : Frame P) : State P :=
  { s with frame := update s.frame i f }

/-- The scheduler's call of `resume` returns. -/
def State.giveBack (s : State P) (caller : Caller) : State P :=
  if caller = .scheduler then { s with run := .pop } else s

/-- Resume the frame of a task, which stands as given. -/
def State.resume (s : State P) (i : ℕ) (f : Frame P) (caller : Caller) (point : Option ℕ) :
    State P :=
  match f.resume i caller point with
  | .ok f' => s.set i f'
  | .error e => { s with fault := some e }

/-- `task_scheduler::schedule` for `defer_on`; any other awaitable hands the handle to a
resumer of its own. -/
def State.hand (s : State P) (h : Handle) (deferred : Bool) : State P :=
  if deferred then { s with tasks := s.tasks ++ [h] } else { s with held := s.held ++ [h] }

/-- The body suspends on an awaitable that hands its handle to a resumer. -/
def suspendStep (s : State P) (i : ℕ) (deferred : Bool) : Option (State P) :=
  match (s.frame i).body with
  | .running k c =>
      some (((s.set i ({ s.frame i with body := .suspended k }.giveBack c)).hand ⟨i, k⟩
        deferred).giveBack c)
  | _ => none

/-- The body stores its result and arrives at its final suspend. -/
def completeStep (s : State P) (i : ℕ) (c : Except E V) : Option (State P) :=
  match (s.frame i).body with
  | .running k caller => some (s.set i { s.frame i with
      body := .exchange k caller
      result := P.complete (s.frame i).result c
      completed := some c })
  | _ => none

/-- `final_awaitable::await_suspend`. -/
def finalSuspendStep (s : State P) (i : ℕ) : Option (State P) :=
  match (s.frame i).body with
  | .exchange k c =>
      if (s.frame i).state then some (s.set i { s.frame i with body := .resume k c })
      else some ((s.set i ({ s.frame i with
        state := true
        body := .finished k }.giveBack c)).giveBack c)
  | .resume k c =>
      match (s.frame i).continuation with
      | some h =>
          let s' := s.set h { s.frame h with
            awaiter := .continued
            routes := (s.frame h).routes ++ [.finalSuspendOf i] }
          some ((s'.set i ({ s'.frame i with body := .finished k }.giveBack c)).giveBack c)
      | none => some { s with fault := some .nullHandle }
  | _ => none

/-- One step of `co_await` on task `i`. -/
def awaitStep (s : State P) (i : ℕ) : Option (State P) :=
  let f := s.frame i
  match f.awaiter with
  | .idle =>
      -- an eager task exists only once the call that makes it has returned
      if f.body.caller = some .creation then none
      else if f.awaitReady then
        some (s.set i { f with awaiter := .continued, routes := f.routes ++ [.ready] })
      else some (s.set i { f with awaiter := .resume })
  | .resume => some (s.resume i { f with awaiter := .inResume } .awaiter none)
  | .storeContinuation =>
      some (s.set i { f with continuation := some i, awaiter := .exchange })
  | .exchange =>
      if f.state then
        some (s.set i { f with awaiter := .continued, routes := f.routes ++ [.notSuspended] })
      else some (s.set i { f with state := true, awaiter := .suspended })
  | _ => none

/-- `tasks.front().resume()` in the loop of `task_scheduler::run`. -/
def runFrontStep (s : State P) : Option (State P) :=
  match s.run, s.tasks with
  | .front, h :: _ =>
      some ({ s with run := .inResume }.resume h.task (s.frame h.task) .scheduler
        (some h.point))
  | _, _ => none

/-- `tasks.pop()` in the loop of `task_scheduler::run`. -/
def runPopStep (s : State P) : Option (State P) :=
  if s.run = .pop then some { s with run := .front, tasks := s.tasks.tail } else none

/-- A resumer other than the scheduler uses one of the handles it holds. -/
def resumerStep (s : State P) (n : ℕ) : Option (State P) :=
  match s.held[n]? with
  | some h =>
      some ({ s with held := s.held.eraseIdx n }.resume h.task (s.frame h.task) .resumer
        (some h.point))
  | none => none

/-- `task::resume`, by which an owner starts a task. -/
def startStep (s : State P) (i : ℕ) : Option (State P) :=
  if (s.frame i).body = .initial then some (s.resume i (s.frame i) .owner none) else none

def step (s : State P) (act : Act V E) : Option (State P) :=
  if s.fault.isSome then none
  else match act with
    | .start i => startStep s i
    | .suspend i deferred => suspendStep s i deferred
    | .complete i c => completeStep s i c
    | .finalSuspend i => finalSuspendStep s i
    | .await i => awaitStep s i
    | .runFront => runFrontStep s
    | .runPop => runPopStep s
    | .resumer n => resumerStep s n

def system (P : PromiseType V E) (kind : ℕ → Kind) : System (State P) (Act V E) where
  Init s := s = initial P kind
  step := step

/-- Resuming the body is defined. -/
def Body.resumable : Body → Bool
  | .initial | .suspended _ => true
  | _ => false

/-- A `co_await` that resumes the body is the one that starts it: the body is still at
its initial suspend. -/
def Starts (s : State P) : Act V E → Prop
  | .await i => (s.frame i).awaiter = .resume → (s.frame i).body = .initial
  | _ => True

end Coroutines.Task
