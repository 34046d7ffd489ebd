import Coroutines.Lib.Transition
import Mathlib.Data.Nat.Notation
import Mathlib.Tactic.Common

/-!
# Generators

`libcoro/generator.hpp`. The body of a generator runs from one `co_yield` to the next, up to
its end: it returns or throws, and the coroutine is then done. A loop over the generator
resumes it in `begin` and in `++`, where an exception of the body leaves; `Yields` says what the
body itself would go through, and the loop is compared with that.
-/

namespace Coroutines.Generator

open Transition System

/-! ## The model -/

inductive Ending (ε : Type)
  | returned
  | threw (error : ε)
deriving DecidableEq

/-- What the body does from one suspension to the next. -/
inductive Advance (σ α ε : Type)
  | yields (value : α) (rest : σ)
  | ends (ending : Ending ε)

/-- The coroutine frame with its `generator_promise`. -/
structure Coro (σ α ε : Type) where
  /-- Where the body goes on, if it is not at the final suspend. -/
  rest : Option σ
  /-- What `m_value` points to, if it is set. -/
  value : Option α
  exception : Option ε

variable {σ α ε : Type}

/-- The call of the coroutine, which suspends initially. -/
def create (start : σ) : Coro σ α ε where
  rest := some start
  value := none
  exception := none

namespace Coro

def done (c : Coro σ α ε) : Bool := c.rest.isNone

/-- Undefined at the final suspend. -/
def resume (body : σ → Advance σ α ε) (c : Coro σ α ε) : Option (Coro σ α ε) := do
  let rest ← c.rest
  match body rest with
  | .yields value rest => some { c with rest := some rest, value := some value }
  | .ends .returned => some { c with rest := none }
  | .ends (.threw error) => some { c with rest := none, exception := some error }

/-- The exception that it throws. -/
def rethrowIfException (c : Coro σ α ε) : Option ε := c.exception

/-- `resume()`, and the check that follows it in `begin` and in `operator++`. -/
def resumeAndCheck (body : σ → Advance σ α ε) (c : Coro σ α ε) :
    Option (Coro σ α ε × Option ε) := do
  let c ← c.resume body
  some (c, if c.done then c.rethrowIfException else none)

end Coro

/-- `generator::begin`, with the exception that leaves it. The iterator has the same handle. -/
def begin (body : σ → Advance σ α ε) (coroutine : Option (Coro σ α ε)) :
    Option (Option (Coro σ α ε) × Option ε) :=
  match coroutine with
  | none => some (none, none)
  | some c => (c.resumeAndCheck body).map fun r => (some r.1, r.2)

/-- `operator++`, with the exception that leaves it. -/
def increment (body : σ → Advance σ α ε) (coroutine : Option (Coro σ α ε)) :
    Option (Option (Coro σ α ε) × Option ε) := do
  let c ← coroutine
  (c.resumeAndCheck body).map fun r => (some r.1, r.2)

/-- `operator==` with the sentinel. -/
def atEnd (coroutine : Option (Coro σ α ε)) : Bool :=
  match coroutine with
  | none => true
  | some c => c.done

/-- `operator*`. -/
def deref (coroutine : Option (Coro σ α ε)) : Option α := do
  let c ← coroutine
  c.value

/-! ## The loop over a generator -/

/-- The calls that resume the generator, the increments by number. -/
inductive Call
  | begin
  | increment (k : ℕ)
deriving DecidableEq

/-- What the loop does next, or how it was left. -/
inductive Place (ε : Type)
  | starting
  | testing
  | visiting
  | stepping
  | finished
  | unwound (call : Call) (error : ε)

structure Loop (σ α ε : Type) where
  place : Place ε
  coroutine : Option (Coro σ α ε)
  /-- History: the values that `*it` came to, and how often `++it` was called. -/
  visited : List α
  increments : ℕ

/-- `for (auto it = g.begin(); it != g.end(); ++it) visit(*it);` -/
def Loop.step (body : σ → Advance σ α ε) (s : Loop σ α ε) : Option (Loop σ α ε) :=
  match s.place with
  | .starting => do
      let (coroutine, thrown) ← begin body s.coroutine
      some { s with
        coroutine := coroutine
        place := match thrown with
          | none => .testing
          | some error => .unwound .begin error }
  | .testing => some { s with place := if atEnd s.coroutine then .finished else .visiting }
  | .visiting => do
      let value ← deref s.coroutine
      some { s with visited := s.visited ++ [value], place := .stepping }
  | .stepping => do
      let k := s.increments + 1
      let (coroutine, thrown) ← increment body s.coroutine
      some { s with
        coroutine := coroutine
        increments := k
        place := match thrown with
          | none => .testing
          | some error => .unwound (.increment k) error }
  | .finished => none
  | .unwound _ _ => none

def Loop.initial (start : σ) : Loop σ α ε where
  place := .starting
  coroutine := some (create start)
  visited := []
  increments := 0

/-- The loop over a generator whose body starts at `start`. -/
def loop (body : σ → Advance σ α ε) (start : σ) : System (Loop σ α ε) Unit where
  Init s := s = Loop.initial start
  step s _ := s.step body

/-- The next step resumes the coroutine. -/
def Loop.Resumes (s : Loop σ α ε) : Prop :=
  match s.place with
  | .starting | .stepping => True
  | _ => False

/-- The loop is over. -/
def Loop.Left (s : Loop σ α ε) : Prop :=
  match s.place with
  | .finished | .unwound _ _ => True
  | _ => False

/-! ## What the body goes through -/

/-- The body yields exactly these values, in this order, between the two suspensions. -/
def Yields (body : σ → Advance σ α ε) : σ → List α → σ → Prop
  | s, [], t => s = t
  | s, v :: vs, t => ∃ rest, body s = .yields v rest ∧ Yields body rest vs t

/-- The body yields these values and then ends. -/
def Produces (body : σ → Advance σ α ε) (start : σ) (vs : List α) (ending : Ending ε) : Prop :=
  ∃ rest, Yields body start vs rest ∧ body rest = .ends ending

/-- The call that an exception of the body leaves after `k` values. -/
def thrower (k : ℕ) : Call := if k = 0 then .begin else .increment k

/-- What a loop has done is what the body did, no less and no more. -/
structure Loop.Faithful (body : σ → Advance σ α ε) (start : σ) (s : Loop σ α ε) : Prop where
  visited : ∃ rest, Yields body start s.visited rest
  finished : s.place = .finished → Produces body start s.visited .returned
  unwound : ∀ call error, s.place = .unwound call error →
    Produces body start s.visited (.threw error) ∧ call = thrower s.visited.length
  suspended : s.Resumes → ∃ c, s.coroutine = some c ∧ c.done = false
  defined : s.step body = none → s.Left

section
variable {body : σ → Advance σ α ε} {start : σ}

theorem Yields.snoc {s t rest : σ} {vs : List α} {v : α} (h : Yields body s vs t)
    (hv : body t = .yields v rest) : Yields body s (vs ++ [v]) rest := by
  induction vs generalizing s with
  | nil =>
      obtain rfl : s = t := h
      exact ⟨rest, hv, rfl⟩
  | cons w vs ih =>
      obtain ⟨next, hw, hrest⟩ := h
      exact ⟨next, hw, ih hrest⟩

/-! ## Every step -/

/-- The states of the loop: how far the body has come, and what of it the loop has seen. -/
inductive Follows (body : σ → Advance σ α ε) (start : σ) : Loop σ α ε → Prop
  | starting : Follows body start (.initial start)
  | testing {vs v rest} : Yields body start (vs ++ [v]) rest →
      Follows body start ⟨.testing, some ⟨some rest, some v, none⟩, vs, vs.length⟩
  | visiting {vs v rest} : Yields body start (vs ++ [v]) rest →
      Follows body start ⟨.visiting, some ⟨some rest, some v, none⟩, vs, vs.length⟩
  | stepping {vs v rest} : Yields body start (vs ++ [v]) rest →
      Follows body start ⟨.stepping, some ⟨some rest, some v, none⟩, vs ++ [v], vs.length⟩
  | returned {vs value} : Produces body start vs .returned →
      Follows body start ⟨.testing, some ⟨none, value, none⟩, vs, vs.length⟩
  | finished {vs value} : Produces body start vs .returned →
      Follows body start ⟨.finished, some ⟨none, value, none⟩, vs, vs.length⟩
  | unwound {vs value error} : Produces body start vs (.threw error) →
      Follows body start ⟨.unwound (thrower vs.length) error, some ⟨none, value, some error⟩,
        vs, vs.length⟩

/-- What is left of the loop when `begin` or `++` has resumed the body after `vs`. -/
def advanced (vs : List α) (value : Option α) : Advance σ α ε → Loop σ α ε
  | .yields v rest => ⟨.testing, some ⟨some rest, some v, none⟩, vs, vs.length⟩
  | .ends .returned => ⟨.testing, some ⟨none, value, none⟩, vs, vs.length⟩
  | .ends (.threw error) =>
      ⟨.unwound (thrower vs.length) error, some ⟨none, value, some error⟩, vs, vs.length⟩

/-- A coroutine that is suspended in its body is resumed, and only what is thrown then leaves. -/
theorem resumeAndCheck_suspended (rest : σ) (value : Option α) :
    (⟨some rest, value, none⟩ : Coro σ α ε).resumeAndCheck body = some (match body rest with
      | .yields v next => (⟨some next, some v, none⟩, none)
      | .ends .returned => (⟨none, value, none⟩, none)
      | .ends (.threw error) => (⟨none, value, some error⟩, some error)) := by
  rcases hbody : body rest with ⟨v, next⟩ | _ | error
  · simp [Coro.resumeAndCheck, Coro.resume, hbody, Coro.done]
  · simp [Coro.resumeAndCheck, Coro.resume, hbody, Coro.rethrowIfException]
  · simp [Coro.resumeAndCheck, Coro.resume, hbody, Coro.done, Coro.rethrowIfException]

theorem step_initial :
    (Loop.initial start).step body = some (advanced [] none (body start)) := by
  simp only [Loop.step, Loop.initial, begin, create, resumeAndCheck_suspended]
  rcases body start with ⟨v, rest⟩ | _ | error
  · rfl
  · rfl
  · rfl

theorem step_stepping {vs : List α} {v : α} {rest : σ} {value : Option α} :
    (⟨.stepping, some ⟨some rest, value, none⟩, vs ++ [v], vs.length⟩ : Loop σ α ε).step body =
      some (advanced (vs ++ [v]) value (body rest)) := by
  have hlen : (vs ++ [v]).length = vs.length + 1 := by simp
  have hthrower : thrower (vs.length + 1) = .increment (vs.length + 1) := rfl
  simp only [Loop.step, increment, Option.bind_eq_bind, Option.bind_some,
    resumeAndCheck_suspended]
  rcases body rest with ⟨w, next⟩ | _ | error
  · simp only [advanced, hlen]
    rfl
  · simp only [advanced, hlen]
    rfl
  · simp only [advanced, hlen, hthrower]
    rfl

theorem follows_advanced {vs : List α} {value : Option α} {rest : σ}
    (h : Yields body start vs rest) : Follows body start (advanced vs value (body rest)) := by
  rcases hbody : body rest with ⟨v, next⟩ | _ | error
  · exact .testing (h.snoc hbody)
  · exact .returned ⟨rest, h, hbody⟩
  · exact .unwound ⟨rest, h, hbody⟩

theorem Follows.step {s t : Loop σ α ε} (h : Follows body start s)
    (hstep : s.step body = some t) : Follows body start t := by
  cases h with
  | starting =>
      rw [step_initial] at hstep
      rw [← Option.some.inj hstep]
      exact follows_advanced rfl
  | testing hy =>
      rw [← Option.some.inj hstep]
      exact .visiting hy
  | visiting hy =>
      rw [← Option.some.inj hstep]
      exact .stepping hy
  | stepping hy =>
      rw [step_stepping] at hstep
      rw [← Option.some.inj hstep]
      exact follows_advanced hy
  | returned hp =>
      rw [← Option.some.inj hstep]
      exact .finished hp
  | finished _ => cases hstep
  | unwound _ => cases hstep

theorem follows_of_reachable {s : Loop σ α ε} (h : (loop body start).Reachable s) :
    Follows body start s := by
  refine h.invariant ?_ fun _ _ _ hs _ hstep => hs.step hstep
  rintro _ rfl
  exact .starting

theorem Yields.init {s t : σ} {vs : List α} {v : α} (h : Yields body s (vs ++ [v]) t) :
    ∃ rest, Yields body s vs rest := by
  induction vs generalizing s with
  | nil => exact ⟨s, rfl⟩
  | cons w vs ih =>
      obtain ⟨next, hw, hrest⟩ := h
      obtain ⟨rest, hvs⟩ := ih hrest
      exact ⟨rest, next, hw, hvs⟩

theorem Follows.faithful {s : Loop σ α ε} (h : Follows body start s) : s.Faithful body start := by
  constructor
  case visited =>
    cases h with
    | starting => exact ⟨start, rfl⟩
    | testing hy => exact hy.init
    | visiting hy => exact hy.init
    | stepping hy => exact ⟨_, hy⟩
    | returned hp => exact ⟨_, hp.choose_spec.1⟩
    | finished hp => exact ⟨_, hp.choose_spec.1⟩
    | unwound hp => exact ⟨_, hp.choose_spec.1⟩
  case finished =>
    intro hplace
    cases h with
    | finished hp => exact hp
    | _ => cases hplace
  case unwound =>
    intro call error hplace
    cases h with
    | unwound hp =>
        cases hplace
        exact ⟨hp, rfl⟩
    | _ => cases hplace
  case suspended =>
    intro hresumes
    cases h with
    | starting => exact ⟨_, rfl, rfl⟩
    | stepping _ => exact ⟨_, rfl, rfl⟩
    | _ => cases hresumes
  case defined =>
    intro hstep
    cases h with
    | starting =>
        rw [step_initial] at hstep
        cases hstep
    | stepping _ =>
        rw [step_stepping] at hstep
        cases hstep
    | finished _ => trivial
    | unwound _ => trivial
    | _ => cases hstep

/-! ## The whole loop -/

/-- The body has been resumed after `vs`: the loop goes through what is left of it. -/
theorem leads_of_yields (start : σ) {rest t : σ} (vs : List α) {ws : List α}
    (value : Option α) (h : Yields body rest ws t) :
    ∃ value', (loop body start).Leads (advanced vs value (body rest))
      (advanced (vs ++ ws) value' (body t)) := by
  induction ws generalizing rest vs value with
  | nil =>
      obtain rfl : rest = t := h
      rw [List.append_nil]
      exact ⟨value, .refl⟩
  | cons w ws ih =>
      obtain ⟨next, hw, hws⟩ := h
      obtain ⟨value', hleads⟩ := ih (vs ++ [w]) (some w) hws
      refine ⟨value', ?_⟩
      rw [hw, List.append_cons]
      -- test, visit and `++`
      apply Leads.trans (.single (l := ()) rfl)
      apply Leads.trans (.single (l := ()) rfl)
      exact Leads.trans (.single (l := ()) step_stepping) hleads

theorem leads_initial {t : σ} {vs : List α} (h : Yields body start vs t) :
    ∃ value, (loop body start).Leads (.initial start) (advanced vs value (body t)) := by
  obtain ⟨value, hleads⟩ := leads_of_yields start [] none h
  exact ⟨value, Leads.trans (.single (l := ()) step_initial) hleads⟩

/-- **A loop over a generator visits what the body yields**, for every body: it finishes where
the body returns, an exception leaves the call that resumed the body into it, and the loop
comes as far as the body goes. At no time does it resume a body that is done. -/
theorem loop_visits (body : σ → Advance σ α ε) (start : σ) :
    (∀ vs, Produces body start vs .returned → ∃ s, (loop body start).Leads (.initial start) s ∧
      s.place = .finished ∧ s.visited = vs) ∧
    (∀ vs error, Produces body start vs (.threw error) →
      ∃ s, (loop body start).Leads (.initial start) s ∧
        s.place = .unwound (thrower vs.length) error ∧ s.visited = vs) ∧
    (∀ vs rest, Yields body start vs rest →
      ∃ s, (loop body start).Leads (.initial start) s ∧ s.visited = vs) ∧
    ∀ s, (loop body start).Reachable s → s.Faithful body start := by
  refine ⟨?_, ?_, ?_, fun s h => (follows_of_reachable h).faithful⟩
  · rintro vs ⟨rest, hy, hbody⟩
    obtain ⟨value, hleads⟩ := leads_initial hy
    rw [hbody] at hleads
    exact ⟨_, hleads.trans (.single (l := ()) rfl), rfl, rfl⟩
  · rintro vs error ⟨rest, hy, hbody⟩
    obtain ⟨value, hleads⟩ := leads_initial hy
    rw [hbody] at hleads
    exact ⟨_, hleads, rfl, rfl⟩
  · intro vs rest hy
    obtain ⟨value, hleads⟩ := leads_initial hy
    refine ⟨_, hleads, ?_⟩
    rcases body rest with _ | _ | _
    · rfl
    · rfl
    · rfl

/-- `make_range`. -/
def makeRange (stop i : ℕ) : Advance ℕ ℕ Unit :=
  if i < stop then .yields i (i + 1) else .ends .returned

theorem loop_visits_range :
    ∃ s, (loop (makeRange 5) 0).Leads (.initial 0) s ∧ s.place = .finished ∧
      s.visited = [0, 1, 2, 3, 4] :=
  (loop_visits (makeRange 5) 0).1 _
    ⟨5, ⟨1, rfl, 2, rfl, 3, rfl, 4, rfl, 5, rfl, rfl⟩, rfl⟩

end

end Coroutines.Generator
