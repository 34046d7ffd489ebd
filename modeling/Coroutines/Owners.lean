import Coroutines.Lib.Ownership

/-!
# The owners of the repository

The classes that hold a frame, a descriptor or a Windows handle and dispose of it in their
destructor. What they hold is an integer here: the address of a frame, or the number of a
descriptor. A number that the system gives out again stands for another handle.
-/

namespace Coroutines.Owners

open Transition Ownership

/-! ## The classes -/

/-- The move operations leave the other object empty. The assignment tests for itself and
disposes of what it replaces. -/
def moveOnly (null : ℤ) : Wrapper ℤ where
  null := null
  copies := false
  assigns := true
  disposes := true
  frees := true
  releases := false
  swaps := false
  puts := false

/-- A destructor and nothing else: the compiler adds the copy operations, and takes them for
moves as well. -/
def copyable (null : ℤ) : Wrapper ℤ :=
  { moveOnly null with copies := true, disposes := false }

/-! A null coroutine handle is the address zero. -/

/-- `libcoro/task.hpp`. -/
def task : Wrapper ℤ := moveOnly 0

/-- `libcoro/eager_task.hpp`. -/
def eagerTask : Wrapper ℤ := moveOnly 0

/-- `algorithms/when-all/when_all.hpp`. -/
def whenAllTask : Wrapper ℤ := moveOnly 0

/-- The examples of `basics/keywords`. -/
def resumable : Wrapper ℤ := moveOnly 0

/-- `libcoro/generator.hpp`, which has no move assignment. -/
def generator : Wrapper ℤ := { moveOnly 0 with assigns := false, swaps := true }

/-- `root_task` of `applications/binary-search/coro_infra.hpp`, where `set_owner` gives the
handle away. -/
def rootTask : Wrapper ℤ := { moveOnly 0 with assigns := false, releases := true }

/-- `basics/composition/task_v0.hpp`. -/
def taskV0 : Wrapper ℤ := copyable 0

/-- `basics/composition/task_v1.hpp`. -/
def taskV1 : Wrapper ℤ := copyable 0

/-- `libcoro/nix/unique_fd.hpp`, where `put` gives the address of the descriptor away. -/
def uniqueFd : Wrapper ℤ := { moveOnly (-1) with releases := true, puts := true }

/-- `applications/pipes/nix-pipe`; the pointer to the context goes where the descriptor goes. -/
def nixReadablePipe : Wrapper ℤ := moveOnly (-1)

def nixWriteablePipe : Wrapper ℤ := moveOnly (-1)

/-- The move assignment overwrites the instance. -/
def nixIoContext : Wrapper ℤ := { moveOnly (-1) with disposes := false }

/-- `applications/pipes/win-pipe`, with `INVALID_HANDLE_VALUE` for a pipe and `NULL` for the
port; the pipes have no move assignment. `CloseHandle` of either of these closes nothing. -/
def winReadablePipe : Wrapper ℤ := { moveOnly (-1) with assigns := false }

def winWriteablePipe : Wrapper ℤ := { moveOnly (-1) with assigns := false }

def winIoContext : Wrapper ℤ := moveOnly 0

/-! ## The classes that own soundly -/

def owners : List (Wrapper ℤ) :=
  [task, eagerTask, whenAllTask, resumable, generator, rootTask, nixReadablePipe,
    nixWriteablePipe, winReadablePipe, winWriteablePipe, winIoContext]

/-- No context is assigned to while it has an instance of its own. -/
def NotOver (s : State ℤ) : Op ℤ → Prop
  | .assign o rhs => o ≠ rhs → s.objects.lookup o = some (-1)
  | _ => True

/-- Nothing is written through `put` to an object that has a descriptor. -/
def PutIntoEmpty (s : State ℤ) : Op ℤ → Prop
  | .put o _ => s.objects.lookup o = some (-1)
  | _ => True

/-- No task is destroyed before `set_owner`. -/
def Spawned (s : State ℤ) : Op ℤ → Prop
  | .destroy o => s.objects.lookup o = some 0
  | _ => True

/-- No task is made from, or assigned to, a task that has a frame. -/
def NotCopied (s : State ℤ) : Op ℤ → Prop
  | .transfer _ other => s.objects.lookup other = some 0
  | .assign o rhs => o ≠ rhs → s.objects.lookup rhs = some 0 ∧ s.objects.lookup o = some 0
  | _ => True

theorem careful_nixIoContext : Careful nixIoContext = NotOver := by
  funext s op
  cases op <;> simp [Careful, NotOver, nixIoContext, moveOnly]

theorem careful_uniqueFd : Careful uniqueFd = PutIntoEmpty := by
  funext s op
  cases op <;> simp [Careful, PutIntoEmpty, uniqueFd, moveOnly]

theorem careful_copyable : Careful (copyable 0) = NotCopied := by
  funext s op
  cases op <;> simp [Careful, NotCopied, copyable, moveOnly]

/-- **An epoll instance is closed once**, if and only if no context is assigned over it. -/
theorem nixIoContext_sound_iff :
    (∀ s, (system nixIoContext).ReachableUnder NotOver s → s.Sound nixIoContext) ∧
      (system nixIoContext).Breaks NotOver (State.Sound nixIoContext) := by
  rw [← careful_nixIoContext]
  exact ⟨fun s => sound_of_careful, breaks_careful nixIoContext⟩

/-- A context is moved from, assigned to while it is empty, and destroyed like the others. -/
theorem nixIoContext_sound_over_empty :
    ∃ s, (system nixIoContext).run initial [.construct 0 5, .construct 1 6, .transfer 2 0,
      .assign 0 1, .destroy 0, .destroy 1, .destroy 2] = some s ∧ s.disposed = [6, 5] ∧
      s.Sound nixIoContext := by
  have hmeets : (system nixIoContext).Meets NotOver initial [.construct 0 5, .construct 1 6,
      .transfer 2 0, .assign 0 1, .destroy 0, .destroy 1, .destroy 2] :=
    ⟨trivial, _, rfl, trivial, _, rfl, trivial, _, rfl, fun _ => rfl, _, rfl, trivial, _, rfl,
      trivial, _, rfl, trivial, _, rfl, trivial⟩
  have hreach := System.ReachableUnder.run (.init rfl) hmeets rfl
  exact ⟨_, rfl, rfl, nixIoContext_sound_iff.1 _ hreach⟩

/-- **A descriptor is closed once or released**, if and only if `put` is called on empty
objects only. -/
theorem uniqueFd_sound_iff :
    (∀ s, (system uniqueFd).ReachableUnder PutIntoEmpty s → s.Sound uniqueFd) ∧
      (system uniqueFd).Breaks PutIntoEmpty (State.Sound uniqueFd) := by
  rw [← careful_uniqueFd]
  exact ⟨fun s => sound_of_careful, breaks_careful uniqueFd⟩

/-- A descriptor is written to an object that was moved from, and the first one is released. -/
theorem uniqueFd_sound_put_into_empty :
    ∃ s, (system uniqueFd).run initial [.construct 0 5, .transfer 1 0, .put 0 6, .release 1,
      .destroy 0, .destroy 1] = some s ∧ s.disposed = [6] ∧ s.released = [5] ∧
      s.Sound uniqueFd := by
  have hmeets : (system uniqueFd).Meets PutIntoEmpty initial [.construct 0 5, .transfer 1 0,
      .put 0 6, .release 1, .destroy 0, .destroy 1] :=
    ⟨trivial, _, rfl, trivial, _, rfl, rfl, _, rfl, trivial, _, rfl, trivial, _, rfl, trivial,
      _, rfl, trivial⟩
  have hreach := System.ReachableUnder.run (.init rfl) hmeets rfl
  exact ⟨_, rfl, rfl, rfl, uniqueFd_sound_iff.1 _ hreach⟩

/-- **The tasks of the composition examples** own soundly if and only if none with a frame is
copied or moved. -/
theorem taskV_sound_iff (c : Wrapper ℤ) (hc : c ∈ [taskV0, taskV1]) :
    (∀ s, (system c).ReachableUnder NotCopied s → s.Sound c) ∧
      (system c).Breaks NotCopied (State.Sound c) := by
  obtain rfl : c = copyable 0 := by
    rcases List.mem_pair.mp hc with rfl | rfl <;> rfl
  rw [← careful_copyable]
  exact ⟨fun s => sound_of_careful, breaks_careful (copyable 0)⟩

theorem taskV_sound_in_place :
    ∃ s, (system taskV1).run initial [.construct 0 7, .construct 1 8, .destroy 0, .destroy 1] =
      some s ∧ s.disposed = [7, 8] ∧ s.Sound taskV1 := by
  have hmem : taskV1 ∈ [taskV0, taskV1] := List.mem_pair.mpr (Or.inr rfl)
  have hmeets : (system taskV1).Meets NotCopied initial
      [.construct 0 7, .construct 1 8, .destroy 0, .destroy 1] :=
    ⟨trivial, _, rfl, trivial, _, rfl, trivial, _, rfl, trivial, _, rfl, trivial⟩
  have hreach := System.ReachableUnder.run (.init rfl) hmeets rfl
  exact ⟨_, rfl, rfl, (taskV_sound_iff taskV1 hmem).1 _ hreach⟩

/-- A task that is returned by way of a move: its frame is destroyed twice. -/
example : ∃ s, (system taskV0).run initial [.construct 0 7, .transfer 1 0, .destroy 0, .destroy 1] =
    some s ∧ s.disposed = [7, 7] :=
  ⟨_, rfl, rfl⟩

end Coroutines.Owners
