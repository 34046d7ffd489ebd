import Mathlib.Data.Nat.Notation
import Mathlib.Logic.Function.Basic

/-!
# Readiness notification from an interest list

A table holds a mask of events and a datum for each descriptor on it. `add` fails for a
descriptor that is on the table, `modify` and `delete` for one that is not, and `modify` replaces
the mask together with the datum. A descriptor is reported when it is ready for an event of its
mask; hang-up and error are reported whatever the mask.
-/

namespace Epoll

open Function

structure Events where
  input : Bool := false
  output : Bool := false
  hangUp : Bool := false
  error : Bool := false
deriving DecidableEq

/-- What a descriptor with this mask shows of what it is ready for. -/
def Events.visible (mask ready : Events) : Events where
  input := mask.input && ready.input
  output := mask.output && ready.output
  hangUp := ready.hangUp
  error := ready.error

theorem Events.eq_empty_iff {events : Events} :
    events = {} ↔ events.input = false ∧ events.output = false ∧ events.hangUp = false ∧
      events.error = false := by
  rcases events with ⟨input, output, hangUp, error⟩
  rw [Events.mk.injEq]

structure Entry (δ : Type*) where
  events : Events
  data : δ

abbrev Table (δ : Type*) := ℕ → Option (Entry δ)

namespace Table

variable {δ : Type*} (t : Table δ) (fd : ℕ)

def add (e : Entry δ) : Option (Table δ) :=
  if (t fd).isSome then none else some (update t fd (some e))

def modify (e : Entry δ) : Option (Table δ) :=
  if (t fd).isSome then some (update t fd (some e)) else none

def delete : Option (Table δ) :=
  if (t fd).isSome then some (update t fd none) else none

/-- The event for a descriptor that is ready for `ready`. -/
def report (ready : Events) : Option (Entry δ) :=
  match t fd with
  | none => none
  | some e =>
      if e.events.visible ready = {} then none else some ⟨e.events.visible ready, e.data⟩

variable {t fd}

theorem add_eq_some {e : Entry δ} {t' : Table δ} (h : t.add fd e = some t') :
    t fd = none ∧ t' = update t fd (some e) := by
  unfold add at h
  split at h
  · cases h
  · rename_i hnone
    cases h
    exact ⟨Option.not_isSome_iff_eq_none.mp hnone, rfl⟩

theorem modify_eq_some {e : Entry δ} {t' : Table δ} (h : t.modify fd e = some t') :
    (∃ old, t fd = some old) ∧ t' = update t fd (some e) := by
  unfold modify at h
  split at h
  · rename_i hsome
    cases h
    exact ⟨Option.isSome_iff_exists.mp hsome, rfl⟩
  · cases h

theorem delete_eq_some {t' : Table δ} (h : t.delete fd = some t') : t' = update t fd none := by
  unfold delete at h
  split at h
  · cases h
    rfl
  · cases h

/-- A descriptor that is not hung up or in error is reported for an event of its mask only. -/
theorem report_none_of_masked {old : Entry δ} {ready : Events} (hold : t fd = some old)
    (hmask : old.events = {}) (hup : ready.hangUp = false) (herr : ready.error = false) :
    t.report fd ready = none := by
  have hnone : old.events.visible ready = {} := by
    rw [hmask]
    simp [Events.visible, hup, herr]
  simp [report, hold, hnone]

end Table

end Epoll
