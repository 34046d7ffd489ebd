import Mathlib.Data.Nat.Notation
import Mathlib.Tactic.Common

/-!
# Lazily evaluated results

`primitives/lazy/lazy.hpp`. The coroutine of a `lazy` starts suspended, and the first `get` resumes
it, takes the value out of its promise and destroys the frame. The promise does not suspend at its
final suspend, so a body that returns has destroyed the frame by then.

A read of a frame that is gone comes up with anything, and so does a value in a promise that was
never set; the calls bring along what is read there.
-/

namespace Coroutines.Lazy

/-! ## The model -/

/-- What the body does when it is resumed. -/
inductive Body (T : Type)
  | returns (val : T)
  | suspends            -- it awaits something, and returns to its resumer
  | throws

structure State (T : Type) where
  /-- `lazy::handle` is not null. -/
  handle : Bool
  value : Option T
  /-- `lazy_promise::value`. -/
  promiseValue : T
  /-- The frame lives. -/
  alive : Bool
  /-- `std::terminate` was called. -/
  terminated : Bool
  /-- History: how often the body was started and the frame destroyed, the reads of the promise
  after that, and what the calls of `get` returned. -/
  runs : ℕ
  destroyed : ℕ
  deadReads : ℕ
  returned : List T

variable {T : Type}

/-- The call of the coroutine, which leaves its promise as it found it. -/
def create (uninitialized : T) : State T where
  handle := true
  value := none
  promiseValue := uninitialized
  alive := true
  terminated := false
  runs := 0
  destroyed := 0
  deadReads := 0
  returned := []

def State.destroyFrame (s : State T) : State T :=
  { s with alive := false, destroyed := s.destroyed + 1 }

/-- `handle.resume()`. -/
def State.resume (body : Body T) (s : State T) : State T :=
  let s := { s with runs := s.runs + 1 }
  match body with
  | .returns val => { s with promiseValue := val }.destroyFrame
  | .suspends => s
  | .throws => { s with terminated := true }

/-- `handle.promise().value`. -/
def State.readPromise (garbage : T) (s : State T) : T × State T :=
  if s.alive then (s.promiseValue, s) else (garbage, { s with deadReads := s.deadReads + 1 })

/-- The part of `get` under `if (handle)`. -/
def State.compute (body : Body T) (garbage : T) (s : State T) : State T :=
  let s := s.resume body
  if s.terminated then s
  else
    let (x, s) := s.readPromise garbage
    { { s with value := some x }.destroyFrame with handle := false }

/-- `value.value()`. -/
def State.returnValue (s : State T) : State T :=
  match s.value with
  | some x => { s with returned := s.returned ++ [x] }
  | none => s

def State.get (body : Body T) (s : State T) (garbage : T) : State T :=
  if s.terminated then s
  else if s.handle then (s.compute body garbage).returnValue
  else s.returnValue

/-- `lazy::~lazy`. -/
def State.destruct (s : State T) : State T :=
  if s.terminated then s else if s.handle then s.destroyFrame else s

/-- A `lazy` from its call to its end, with what each `get` reads where nothing is set. -/
def lifetime (body : Body T) (uninitialized : T) (gets : List T) : State T :=
  (gets.foldl (State.get body) (create uninitialized)).destruct

/-! ## What a lazy promises -/

structure State.Sound (body : Body T) (nGets : ℕ) (s : State T) : Prop where
  runs : s.runs ≤ 1
  destroyed : s.destroyed = 1
  alive : s.deadReads = 0
  answered : s.returned.length = nGets
  values : ∀ x ∈ s.returned, body = .returns x

/-- One `get`, even if the dead frame still reads as before. -/
theorem not_sound_after_get :
    ¬ ∀ (body : Body ℕ) uninitialized gets,
      (lifetime body uninitialized gets).Sound body gets.length := by
  intro h
  have hsound := h (.returns 42) 0 [42]
  exact absurd hsound.destroyed (by decide)

/-! ## After the first get -/

/-- What the first `get` has left behind, for good. -/
def State.Spoiled (body : Body T) (s : State T) : Prop :=
  match body with
  | .returns _ => s.handle = false ∧ s.destroyed = 2
  | .suspends => s.handle = false ∧ s.returned ≠ []
  | .throws => s.terminated = true ∧ s.returned = []

theorem returnValue_handle (s : State T) : s.returnValue.handle = s.handle := by
  unfold State.returnValue
  split <;> rfl

theorem returnValue_destroyed (s : State T) : s.returnValue.destroyed = s.destroyed := by
  unfold State.returnValue
  split <;> rfl

theorem returnValue_returned {s : State T} (h : s.returned ≠ []) :
    s.returnValue.returned ≠ [] := by
  unfold State.returnValue
  split
  · exact List.append_ne_nil_of_left_ne_nil h _
  · exact h

/-- **The first `get`**: a body that returns leaves the frame to be destroyed a second time, a body
that suspends leaves a value it has not returned, a body that throws ends the program. -/
theorem get_create (body : Body T) (uninitialized garbage : T) :
    ((create uninitialized).get body garbage).Spoiled body := by
  cases body with
  | returns val => exact ⟨rfl, rfl⟩
  | suspends => exact ⟨rfl, List.cons_ne_nil _ _⟩
  | throws => exact ⟨rfl, rfl⟩

/-- Once the handle is gone, `get` returns the value it has. -/
theorem get_of_not_handle (body : Body T) {s : State T} (garbage : T) (h : s.handle = false) :
    s.get body garbage = s ∨ s.get body garbage = s.returnValue := by
  unfold State.get
  split
  · exact Or.inl rfl
  · rw [if_neg (by rw [h]; decide)]
    exact Or.inr rfl

theorem State.Spoiled.get {body : Body T} {s : State T} (h : s.Spoiled body) (garbage : T) :
    (s.get body garbage).Spoiled body := by
  cases body with
  | returns val =>
      obtain ⟨hhandle, hdestroyed⟩ := h
      rcases get_of_not_handle (.returns val) garbage hhandle with hget | hget
      · rw [hget]
        exact ⟨hhandle, hdestroyed⟩
      · rw [hget]
        exact ⟨(returnValue_handle s).trans hhandle, (returnValue_destroyed s).trans hdestroyed⟩
  | suspends =>
      obtain ⟨hhandle, hreturned⟩ := h
      rcases get_of_not_handle .suspends garbage hhandle with hget | hget
      · rw [hget]
        exact ⟨hhandle, hreturned⟩
      · rw [hget]
        exact ⟨(returnValue_handle s).trans hhandle, returnValue_returned hreturned⟩
  | throws =>
      have hget : s.get .throws garbage = s := if_pos h.1
      rw [hget]
      exact h

theorem State.Spoiled.gets {body : Body T} {s : State T} (h : s.Spoiled body) (gets : List T) :
    (gets.foldl (State.get body) s).Spoiled body := by
  induction gets generalizing s with
  | nil => exact h
  | cons garbage gets ih => exact ih (h.get garbage)

/-- The destructor does not mend it. -/
theorem State.Spoiled.not_sound {body : Body T} {s : State T} (h : s.Spoiled body) {nGets : ℕ}
    (hpos : 0 < nGets) : ¬ s.destruct.Sound body nGets := by
  intro hsound
  unfold State.destruct at hsound
  cases body with
  | returns val =>
      rw [h.1, if_neg Bool.false_ne_true, ite_self] at hsound
      exact absurd (h.2.symm.trans hsound.destroyed) (by decide)
  | suspends =>
      rw [h.1, if_neg Bool.false_ne_true, ite_self] at hsound
      obtain ⟨x, hx⟩ := List.exists_mem_of_ne_nil _ h.2
      cases hsound.values x hx
  | throws =>
      rw [if_pos h.1] at hsound
      have hlength := hsound.answered
      rw [h.2] at hlength
      exact Nat.ne_of_lt hpos hlength

/-- **A lazy keeps its promises exactly when its value is never asked for.** For every computation
that returns, suspends or throws, every previous content of the promise and of the memory where
the frame was, and every number of calls of `get` before the destructor: the body runs at most
once, the frame is destroyed once, the promise is read only while it lives and every `get` returns
what the body returned, if and only if there is no call of `get`. -/
theorem sound_iff_no_get (body : Body T) (uninitialized : T) (gets : List T) :
    (lifetime body uninitialized gets).Sound body gets.length ↔ gets = [] := by
  constructor
  · intro hsound
    rcases gets with _ | ⟨garbage, gets⟩
    · rfl
    · have hspoiled := (get_create body uninitialized garbage).gets gets
      exact absurd hsound (hspoiled.not_sound (Nat.succ_pos gets.length))
  · rintro rfl
    exact ⟨Nat.zero_le 1, rfl, rfl, rfl, fun x hx => absurd hx List.not_mem_nil⟩

end Coroutines.Lazy
