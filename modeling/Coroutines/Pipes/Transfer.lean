import Mathlib.Data.Nat.Notation
import Mathlib.Tactic.Common

/-!
# What a transfer returns

`read_some` and `write_some` of `applications/pipes/nix-pipe`, from the construction of the awaiter
to the value of the `co_await`. The constructor initializes the member `len` with itself, and the
member `bytes_xfer` not at all, so both hold what was in the storage before.

The kernel answers each system call of the operation as it likes; where `await_suspend` returns
true, the reactor resumes the coroutine later.
-/

namespace Coroutines.Pipes.Transfer

/-! ## The model -/

abbrev Size := BitVec 64

/-- The awaiter of either operation. -/
structure Awaiter where
  fd : ℕ          -- of the pipe `me`
  buffer : ℕ
  len : Size
  bytesXfer : Size

/-- The constructor, on the storage of the awaiter. -/
def Awaiter.construct (storage : Awaiter) (fd buffer : ℕ) (_len : Size) : Awaiter :=
  -- `len{len}` names the member, not the parameter
  { fd := fd, buffer := buffer, len := storage.len, bytesXfer := storage.bytesXfer }

inductive Answer
  | bytes (n : Size)
  | again
  | error
deriving DecidableEq

/-- A call of `::read` or `::write`, with its answer. -/
structure Syscall where
  fd : ℕ
  buffer : ℕ
  size : Size
  answer : Answer

inductive Outcome
  | returned (n : Size)
  | threw
deriving DecidableEq

/-- What a `co_await` comes to. -/
structure CoAwait where
  calls : List Syscall
  outcome : Outcome

structure Kernel where
  /-- `epoll_ctl` in `set_awaiter` succeeds. -/
  setAwaiter : Bool
  /-- The answers to the calls of the operation, in turn. -/
  answer : ℕ → Answer

/-- The system call that follows the calls made so far. -/
def Kernel.call (kernel : Kernel) (a : Awaiter) (calls : List Syscall) : Syscall where
  fd := a.fd
  buffer := a.buffer
  size := a.len
  answer := kernel.answer calls.length

def awaitResume (kernel : Kernel) (a : Awaiter) (calls : List Syscall) : CoAwait :=
  -- check for synchronous completion
  if 0 < a.bytesXfer then { calls := calls, outcome := .returned a.bytesXfer }
  else
    let call := kernel.call a calls
    { calls := calls ++ [call]
      outcome := match call.answer with
        | .bytes n => .returned n
        | .again | .error => .threw }

def readSome (kernel : Kernel) (storage : Awaiter) (fd buffer : ℕ) (len : Size) : CoAwait :=
  let a := storage.construct fd buffer len
  if kernel.setAwaiter then awaitResume kernel a []
  else { calls := [], outcome := .threw }

def writeSome (kernel : Kernel) (storage : Awaiter) (fd buffer : ℕ) (len : Size) : CoAwait :=
  let a := storage.construct fd buffer len
  if kernel.setAwaiter then
    let call := kernel.call a []
    match call.answer with
    | .again => awaitResume kernel a [call]
    | .error => { calls := [call], outcome := .threw }
    | .bytes n => awaitResume kernel { a with bytesXfer := n } [call]
  else { calls := [], outcome := .threw }

/-! ## What a transfer promises -/

/-- The system calls were for `len` bytes, and a value that is returned is the count that one of
them returned. -/
structure CoAwait.Sound (len : Size) (t : CoAwait) : Prop where
  sizes : ∀ call ∈ t.calls, call.size = len
  counted : ∀ n, t.outcome = .returned n → ∃ call ∈ t.calls, call.answer = .bytes n

/-- Ten bytes into storage that held other numbers. -/
theorem not_sound_on_used_storage :
    ¬ ∀ kernel storage fd buffer len, (readSome kernel storage fd buffer len).Sound len ∧
      (writeSome kernel storage fd buffer len).Sound len := by
  intro h
  have hwrite := (h { setAwaiter := true, answer := fun _ => .bytes 4 }
    { fd := 0, buffer := 0, len := 4, bytesXfer := 0 } 3 100 10).2
  exact absurd (hwrite.sizes _ List.mem_cons_self) (by decide)

/-! ## What the storage held -/

theorem sound_threw {len : Size} {calls : List Syscall} (h : ∀ call ∈ calls, call.size = len) :
    CoAwait.Sound len { calls := calls, outcome := .threw } where
  sizes := h
  counted n hn := by cases hn

/-- **The end of either operation**, with the calls made so far: a count that was set is returned,
and otherwise there is one call more. -/
theorem awaitResume_sound_iff (kernel : Kernel) (a : Awaiter) (len : Size) (calls : List Syscall)
    (hcalls : ∀ call ∈ calls, call.size = len) :
    (awaitResume kernel a calls).Sound len ↔
      if 0 < a.bytesXfer then ∃ call ∈ calls, call.answer = .bytes a.bytesXfer
      else a.len = len := by
  unfold awaitResume
  split
  · constructor
    · intro hsound
      exact hsound.counted _ rfl
    · rintro ⟨call, hmem, hanswer⟩
      refine ⟨hcalls, fun n hn => ?_⟩
      cases hn
      exact ⟨call, hmem, hanswer⟩
  · constructor
    · intro hsound
      exact hsound.sizes (kernel.call a calls) (List.mem_append_right _ List.mem_cons_self)
    · intro hlen
      refine ⟨fun call hmem => ?_, fun n hn => ?_⟩
      · rcases List.mem_append.mp hmem with hmem | hmem
        · exact hcalls call hmem
        · rw [List.mem_singleton.mp hmem]
          exact hlen
      · refine ⟨kernel.call a calls, List.mem_append_right _ List.mem_cons_self, ?_⟩
        dsimp only at hn
        split at hn
        · rename_i m hanswer
          cases hn
          exact hanswer
        · cases hn
        · cases hn

theorem pos_iff_ne_zero {n : Size} : 0 < n ↔ n ≠ 0 := by
  rw [BitVec.lt_def, Ne, ← BitVec.toNat_inj]
  exact Nat.pos_iff_ne_zero

theorem readSome_sound_iff (kernel : Kernel) (storage : Awaiter) (fd buffer : ℕ) (len : Size) :
    (readSome kernel storage fd buffer len).Sound len ↔
      (kernel.setAwaiter = true → storage.len = len ∧ storage.bytesXfer = 0) := by
  unfold readSome
  by_cases hset : kernel.setAwaiter = true
  · rw [if_pos hset, awaitResume_sound_iff _ _ _ _ fun call h => absurd h List.not_mem_nil]
    show (if 0 < storage.bytesXfer then _ else storage.len = len) ↔ _
    by_cases hbytes : storage.bytesXfer = 0
    · rw [if_neg (by rw [hbytes]; decide)]
      exact ⟨fun hlen _ => ⟨hlen, hbytes⟩, fun h => (h hset).1⟩
    · rw [if_pos (pos_iff_ne_zero.mpr hbytes)]
      constructor
      · rintro ⟨call, hmem, -⟩
        exact absurd hmem List.not_mem_nil
      · intro h
        exact absurd (h hset).2 hbytes
  · rw [if_neg hset]
    exact iff_of_true (sound_threw fun call h => absurd h List.not_mem_nil)
      fun h => absurd h hset

/-- Every call is for what the storage held as the length. -/
theorem writeSome_first_call {kernel : Kernel} {storage : Awaiter} {fd buffer : ℕ} {len : Size}
    (hset : kernel.setAwaiter = true)
    (hsound : (writeSome kernel storage fd buffer len).Sound len) :
    storage.len = len := by
  have hmem : kernel.call (storage.construct fd buffer len) [] ∈
      (writeSome kernel storage fd buffer len).calls := by
    unfold writeSome awaitResume
    rw [if_pos hset]
    dsimp only
    split
    · split <;> simp
    · exact List.mem_cons_self
    · split <;> simp
  exact hsound.sizes _ hmem

theorem writeSome_sound_iff (kernel : Kernel) (storage : Awaiter) (fd buffer : ℕ) (len : Size) :
    (writeSome kernel storage fd buffer len).Sound len ↔
      (kernel.setAwaiter = true → storage.len = len ∧
        (kernel.answer 0 = .again → storage.bytesXfer = 0)) := by
  by_cases hset : kernel.setAwaiter = true
  · by_cases hlen : storage.len = len
    · have hfirst : ∀ call ∈ [kernel.call (storage.construct fd buffer len) []],
          call.size = len := by
        intro call hmem
        rw [List.mem_singleton.mp hmem]
        exact hlen
      unfold writeSome
      rw [if_pos hset]
      dsimp only
      rcases hanswer : kernel.answer 0 with n | _ | _
      · have hcall : (kernel.call (storage.construct fd buffer len) []).answer = .bytes n := hanswer
        rw [hcall]
        dsimp only
        rw [awaitResume_sound_iff _ _ _ _ hfirst]
        refine iff_of_true ?_ fun _ => ⟨hlen, fun h => by cases h⟩
        split
        · exact ⟨_, List.mem_cons_self, hcall⟩
        · exact hlen
      · have hcall : (kernel.call (storage.construct fd buffer len) []).answer = .again := hanswer
        rw [hcall]
        dsimp only
        rw [awaitResume_sound_iff _ _ _ _ hfirst]
        show (if 0 < storage.bytesXfer then _ else storage.len = len) ↔ _
        by_cases hbytes : storage.bytesXfer = 0
        · rw [if_neg (by rw [hbytes]; decide)]
          exact iff_of_true hlen fun _ => ⟨hlen, fun _ => hbytes⟩
        · rw [if_pos (pos_iff_ne_zero.mpr hbytes)]
          refine iff_of_false ?_ fun h => hbytes ((h hset).2 rfl)
          rintro ⟨call, hmem, hcount⟩
          rw [List.mem_singleton.mp hmem, hcall] at hcount
          cases hcount
      · have hcall : (kernel.call (storage.construct fd buffer len) []).answer = .error := hanswer
        rw [hcall]
        exact iff_of_true (sound_threw hfirst) fun _ => ⟨hlen, fun h => by cases h⟩
    · exact iff_of_false (fun hsound => hlen (writeSome_first_call hset hsound))
        fun h => hlen (h hset).1
  · unfold writeSome
    rw [if_neg hset]
    exact iff_of_true (sound_threw fun call h => absurd h List.not_mem_nil)
      fun h => absurd h hset

/-- **A transfer keeps its promises exactly when the storage happens to hold the right values.**
For every pipe, buffer and length, every previous content of the storage of the awaiter and every
answer of the kernel: the system calls are for `len` bytes and the value returned is a count that
one of them returned, if and only if the awaiter could not be set, or the storage held `len` as
the length and nothing as the count; a write that is not told to try again overwrites the count. -/
theorem transfer_sound_iff (kernel : Kernel) (storage : Awaiter) (fd buffer : ℕ) (len : Size) :
    ((readSome kernel storage fd buffer len).Sound len ↔
      (kernel.setAwaiter = true → storage.len = len ∧ storage.bytesXfer = 0)) ∧
    ((writeSome kernel storage fd buffer len).Sound len ↔
      (kernel.setAwaiter = true → storage.len = len ∧
        (kernel.answer 0 = .again → storage.bytesXfer = 0))) :=
  ⟨readSome_sound_iff kernel storage fd buffer len,
    writeSome_sound_iff kernel storage fd buffer len⟩

end Coroutines.Pipes.Transfer
