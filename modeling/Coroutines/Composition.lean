import Coroutines.Lib.Heap
import Coroutines.Lib.Loop
import Coroutines.Lib.Transition

/-!
# Composing tasks

`basics/composition/task_v0.hpp` and `task_v1.hpp`. To await a task resumes it, by a call that is
nested in the awaiting coroutine, and the `co_await` destroys the task in the end. The two versions
differ in what the promise holds and in what they do about it at a `co_await` and at the final
suspend; what they share is the machine here, driven by `while (t.resume());`. The bodies as
ordinary functions that call one another are what both are compared with.
-/

namespace Coroutines.Composition

open Transition System Function Loop

/-! ## Bodies -/

/-- The body of a coroutine: what it does in turn, up to its `co_return`. -/
inductive Body (α : Type)
  | done
  | step (x : α) (rest : Body α)
  /-- `co_await child();` -/
  | await (child rest : Body α)

variable {π α : Type}

namespace Body

/-- The steps of the body as a function that calls its children. -/
def calls : Body α → List α
  | .done => []
  | .step x rest => x :: rest.calls
  | .await child rest => child.calls ++ rest.calls

end Body

/-! ## The machine -/

inductive Place
  | suspended
  | running
  | final
deriving DecidableEq

/-- A coroutine frame. -/
structure Frame (π α : Type) where
  rest : Body α
  place : Place
  promise : π
  /-- The task that the `co_await` under way holds. -/
  awaited : Option ℕ

/-- A call on the native stack. -/
inductive Activation
  | running (h : ℕ)
  /-- `task_awaiter::await_suspend`, called for `h`, and the `resume` of `h` around it. -/
  | awaitSuspend (h : ℕ)
  /-- `final_awaiter::await_suspend`, and the `resume` of `h` around it. -/
  | finalSuspend (h : ℕ)

/-- Where `while (t.resume());` is: before and after the call in `task::resume`. -/
inductive Main
  | calling
  | called
  | finished
deriving DecidableEq

structure State (π α : Type) where
  frames : Heap (Frame π α)
  /-- The innermost call first. -/
  stack : List Activation
  main : Main
  /-- History: the steps, and the coroutines that came to their final suspend. -/
  output : List α
  finals : List ℕ

/-- The frame that the call of a coroutine leaves, at its initial suspend. -/
def Frame.create (promise : π) (body : Body α) : Frame π α where
  rest := body
  place := .suspended
  promise := promise
  awaited := none

/-- `coro_handle.resume()`, undefined where the coroutine is not suspended or at its end. -/
def State.resume (s : State π α) (h : ℕ) : Option (State π α) := do
  let f ← s.frames.cells h
  if f.place = .suspended then
    let frames ← s.frames.modify h fun f => { f with place := .running }
    some { s with frames := frames, stack := .running h :: s.stack }
  else none

/-- `co_await child();` up to `await_suspend`: the child is there and `h` is suspended. -/
def State.callChild (s : State π α) (promise : π) (h : ℕ) (child rest : Body α) :
    Option (ℕ × Heap (Frame π α)) := do
  let (c, frames) := s.frames.alloc (.create promise child)
  let frames ← frames.modify h fun f =>
    { f with rest := rest, place := .suspended, awaited := some c }
  some (c, frames)

/-- `coro_handle.destroy()`: with the frame goes the task that it awaits, if any, and so on. -/
def destroyBody (x : ℕ × Heap (Frame π α)) :
    Option ((ℕ × Heap (Frame π α)) ⊕ Heap (Frame π α)) := do
  let f ← x.2.cells x.1
  if f.place = .running then none
  else
    match f.awaited with
    | none => some (.inr (x.2.free x.1))
    | some c => some (.inl (c, x.2.free x.1))

/-- `~task` at the end of the `co_await`. -/
def State.destroyTask (s : State π α) (h c : ℕ) : Option (State π α) := do
  let frames ← iterate destroyBody (s.frames.fresh + 1) (c, s.frames)
  let frames ← frames.modify h fun f => { f with awaited := none }
  some { s with frames := frames }

/-- The coroutine is at its final suspend. -/
def State.finish (s : State π α) (h : ℕ) (stack : List Activation) : Option (State π α) := do
  let frames ← s.frames.modify h fun f => { f with place := .final }
  some { s with frames := frames, finals := s.finals ++ [h], stack := stack }

/-- What a version of the task does in its own way. -/
structure Version (π α : Type) where
  /-- The promise of a new coroutine. -/
  promise : π
  /-- `co_await child();` up to the resumption in `await_suspend`. -/
  coAwait : State π α → ℕ → List Activation → Body α → Body α → Option (State π α)
  /-- The final suspend, with the resumption in `await_suspend` if there is one. -/
  finalSuspend : State π α → ℕ → List Activation → Option (State π α)

/-- What the coroutine that runs does next. -/
def Version.stepBody (v : Version π α) (s : State π α) (h : ℕ) (stack : List Activation) :
    Option (State π α) := do
  let f ← s.frames.cells h
  match f.awaited with
  | some c => s.destroyTask h c
  | none =>
    match f.rest with
    | .done => v.finalSuspend s h stack
    | .step x rest => do
        let frames ← s.frames.modify h fun f => { f with rest := rest }
        some { s with frames := frames, output := s.output ++ [x] }
    | .await child rest => v.coAwait s h stack child rest

/-- `while (t.resume());`, where `t` is the task at `0`. -/
def State.stepMain (s : State π α) : Option (State π α) :=
  match s.main with
  | .calling => do
      let f ← s.frames.cells 0
      if f.place = .final then some { s with main := .called }
      else State.resume { s with main := .called } 0
  | .called => do
      let f ← s.frames.cells 0
      some { s with main := if f.place = .final then .finished else .calling }
  | .finished => none

def Version.step (v : Version π α) (s : State π α) : Option (State π α) :=
  match s.stack with
  | [] => s.stepMain
  | .running h :: stack => v.stepBody s h stack
  | .awaitSuspend _ :: stack => some { s with stack := stack }
  | .finalSuspend _ :: stack => some { s with stack := stack }

/-- `auto t = body();` -/
def Version.initial (v : Version π α) (body : Body α) : State π α where
  frames := (Heap.empty.alloc (.create v.promise body)).2
  stack := []
  main := .calling
  output := []
  finals := []

def Version.drive (v : Version π α) (body : Body α) : System (State π α) Unit where
  Init s := s = v.initial body
  step s _ := v.step s

/-! ## What every version does -/

section
variable {v : Version π α} {s : State π α} {h : ℕ} {p : π} {stack : List Activation}
  {rest : Body α}

theorem resume_spec {f : Frame π α} (hf : s.frames.cells h = some f) (hp : f.place = .suspended) :
    ∃ frames, s.resume h =
        some { s with frames := frames, stack := .running h :: s.stack } ∧
      frames.cells = update s.frames.cells h (some { f with place := .running }) ∧
      frames.fresh = s.frames.fresh := by
  obtain ⟨frames, hmod, hcells, hfresh⟩ :=
    Heap.modify_eq (fun f : Frame π α => { f with place := .running }) hf
  refine ⟨frames, ?_, hcells, hfresh⟩
  simp [State.resume, hf, hp, hmod]

theorem callChild_spec {child : Body α} (promise : π)
    (hf : s.frames.cells h = some ⟨.await child rest, .running, p, none⟩) :
    ∃ frames, s.callChild promise h child rest = some (s.frames.fresh, frames) ∧
      frames.cells = update (update s.frames.cells s.frames.fresh (some (.create promise child)))
        h (some ⟨rest, .suspended, p, some s.frames.fresh⟩) ∧
      frames.fresh = s.frames.fresh + 1 := by
  have hne : h ≠ s.frames.fresh := Nat.ne_of_lt (Heap.lt_fresh hf)
  obtain ⟨frames₁, hframes₁⟩ : ∃ frames, frames = (s.frames.alloc (.create promise child)).2 :=
    ⟨_, rfl⟩
  have hcells₁ : frames₁.cells =
      update s.frames.cells s.frames.fresh (some (.create promise child)) := by
    rw [hframes₁]
    rfl
  have hf₁ : frames₁.cells h = some ⟨.await child rest, .running, p, none⟩ := by
    rw [hcells₁, update_of_ne hne]
    exact hf
  obtain ⟨frames, hmod, hcells, hfresh⟩ := Heap.modify_eq (fun f : Frame π α =>
    { f with rest := rest, place := .suspended, awaited := some s.frames.fresh }) hf₁
  refine ⟨frames, ?_, by rw [hcells, hcells₁], ?_⟩
  · have halloc : s.frames.alloc (.create promise child) = (s.frames.fresh, frames₁) := by
      rw [hframes₁]
      rfl
    simp [State.callChild, halloc, hmod]
  · rw [hfresh, hframes₁]
    rfl

theorem finish_spec {f : Frame π α} (hf : s.frames.cells h = some f) (stack : List Activation) :
    ∃ frames, s.finish h stack =
        some { s with frames := frames, finals := s.finals ++ [h], stack := stack } ∧
      frames.cells = update s.frames.cells h (some { f with place := .final }) ∧
      frames.fresh = s.frames.fresh := by
  obtain ⟨frames, hmod, hcells, hfresh⟩ :=
    Heap.modify_eq (fun f : Frame π α => { f with place := .final }) hf
  refine ⟨frames, ?_, hcells, hfresh⟩
  simp [State.finish, hmod]

theorem step_running (hstack : s.stack = .running h :: stack) :
    v.step s = v.stepBody s h stack := by
  rw [Version.step, hstack]

theorem step_visible {x : α} (hstack : s.stack = .running h :: stack)
    (hf : s.frames.cells h = some ⟨.step x rest, .running, p, none⟩) :
    ∃ frames, v.step s = some { s with frames := frames, output := s.output ++ [x] } ∧
      frames.cells = update s.frames.cells h (some ⟨rest, .running, p, none⟩) ∧
      frames.fresh = s.frames.fresh := by
  obtain ⟨frames, hmod, hcells, hfresh⟩ :=
    Heap.modify_eq (fun f : Frame π α => { f with rest := rest }) hf
  refine ⟨frames, ?_, hcells, hfresh⟩
  rw [step_running hstack]
  simp [Version.stepBody, hf, hmod]

theorem step_await {child : Body α} (hstack : s.stack = .running h :: stack)
    (hf : s.frames.cells h = some ⟨.await child rest, .running, p, none⟩) :
    v.step s = v.coAwait s h stack child rest := by
  rw [step_running hstack]
  simp [Version.stepBody, hf]

theorem step_done (hstack : s.stack = .running h :: stack)
    (hf : s.frames.cells h = some ⟨.done, .running, p, none⟩) :
    v.step s = v.finalSuspend s h stack := by
  rw [step_running hstack]
  simp [Version.stepBody, hf]

/-- The loop resumes the root for the first time. -/
theorem step_initial (v : Version π α) (body : Body α) :
    ∃ frames, v.step (v.initial body) =
        some { v.initial body with
          main := .called, frames := frames, stack := [.running 0] } ∧
      frames.cells = update (v.initial body).frames.cells 0
        (some ⟨body, .running, v.promise, none⟩) ∧
      frames.fresh = 1 := by
  have hroot : (v.initial body).frames.cells 0 = some (.create v.promise body) := rfl
  exact resume_spec (s := { v.initial body with main := .called }) hroot rfl

theorem step_called {f : Frame π α} (hstack : s.stack = []) (hmain : s.main = .called)
    (hf : s.frames.cells 0 = some f) :
    v.step s = some { s with main := if f.place = .final then .finished else .calling } := by
  simp [Version.step, hstack, State.stepMain, hmain, hf]

theorem step_finished (hstack : s.stack = []) (hmain : s.main = .finished) : v.step s = none := by
  simp [Version.step, hstack, State.stepMain, hmain]

end

end Coroutines.Composition
