import Mathlib.Logic.Function.Basic
import Mathlib.Logic.Relation

/-!
# Transition systems driven by a schedule

A system is a set of initial states and a partial step: a label names the
party that moves and the choice it makes, and the step is undefined where that
party cannot move. An interleaving is then a list of labels, so a concrete run
can be evaluated, and a property of every interleaving is an invariant of the
reachable states.

`ReachableUnder ok` keeps only the runs whose every step meets a condition on
the state before it; plain reachability puts no condition. `Breaks ok Good`
says that a condition cannot be relaxed: a step against it can be continued to
a state that is not good. `Leads` relates the two ends of a run. `watched` runs a system
and takes notes of its steps, which restrict nothing.
-/

namespace Transition

structure System (σ : Type*) (ℓ : Type*) where
  Init : σ → Prop
  step : σ → ℓ → Option σ

namespace System

variable {σ ℓ : Type*} (S : System σ ℓ)

/-- Follow a schedule from a state, if every label of it is enabled in turn. -/
def run : σ → List ℓ → Option σ
  | s, [] => some s
  | s, l :: ls => (S.step s l).bind fun t => run t ls

/-- The states reached by runs whose every step meets `ok`. -/
inductive ReachableUnder (ok : σ → ℓ → Prop) : σ → Prop
  | init {s : σ} : S.Init s → ReachableUnder ok s
  | step {s t : σ} {l : ℓ} : ReachableUnder ok s → ok s l → S.step s l = some t →
      ReachableUnder ok t

/-- The states reached by any run. -/
abbrev Reachable : σ → Prop := S.ReachableUnder fun _ _ => True

/-- A schedule that can be followed and whose every step meets `ok`. -/
def Meets (ok : σ → ℓ → Prop) : σ → List ℓ → Prop
  | _, [] => True
  | s, l :: ls => ok s l ∧ ∃ t, S.step s l = some t ∧ Meets ok t ls

/-- Every step against `ok` from a state reached under `ok` can be continued to a
state that is not good. -/
def Breaks (ok : σ → ℓ → Prop) (Good : σ → Prop) : Prop :=
  ∀ s l t, S.ReachableUnder ok s → S.step s l = some t → ¬ ok s l →
    ∃ ls u, S.run t ls = some u ∧ ¬ Good u

/-- Some run leads from the one state to the other. -/
def Leads : σ → σ → Prop := Relation.ReflTransGen fun s t => ∃ l, S.step s l = some t

/-- The system, and the notes taken of its steps. -/
def watched {γ : Type*} (start : γ) (note : γ → σ → ℓ → σ → γ) : System (σ × γ) ℓ where
  Init x := S.Init x.1 ∧ x.2 = start
  step x l := (S.step x.1 l).map fun t => (t, note x.2 x.1 l t)

variable {S}

theorem run_cons {s t : σ} {l : ℓ} (ls : List ℓ) (h : S.step s l = some t) :
    S.run s (l :: ls) = S.run t ls := by
  simp [run, h]

theorem run_append {s t : σ} {ls : List ℓ} (rest : List ℓ) (h : S.run s ls = some t) :
    S.run s (ls ++ rest) = S.run t rest := by
  induction ls generalizing s with
  | nil =>
      cases h
      rfl
  | cons l ls ih =>
      obtain ⟨r, hr, hrun⟩ := Option.bind_eq_some_iff.mp h
      exact (run_cons _ hr).trans (ih hrun)

/-- **The invariant rule**: what holds initially and is kept by every step that
meets `ok` holds in every state reached under `ok`. -/
theorem ReachableUnder.invariant {ok : σ → ℓ → Prop} {I : σ → Prop}
    (hinit : ∀ s, S.Init s → I s)
    (hstep : ∀ s l t, I s → ok s l → S.step s l = some t → I t)
    {s : σ} (h : S.ReachableUnder ok s) : I s := by
  induction h with
  | init h0 => exact hinit _ h0
  | step _ hok hs ih => exact hstep _ _ _ ih hok hs

theorem ReachableUnder.mono {ok ok' : σ → ℓ → Prop} (hok : ∀ s l, ok s l → ok' s l) {s : σ}
    (h : S.ReachableUnder ok s) : S.ReachableUnder ok' s := by
  induction h with
  | init hinit => exact .init hinit
  | step _ hmeets hstep ih => exact .step ih (hok _ _ hmeets) hstep

theorem ReachableUnder.reachable {ok : σ → ℓ → Prop} {s : σ} (h : S.ReachableUnder ok s) :
    S.Reachable s :=
  h.mono fun _ _ _ => trivial

/-- A schedule that meets `ok` throughout stays within the states reached under it. -/
theorem ReachableUnder.run {ok : σ → ℓ → Prop} {s t : σ} {ls : List ℓ}
    (hs : S.ReachableUnder ok s) (hm : S.Meets ok s ls) (h : S.run s ls = some t) :
    S.ReachableUnder ok t := by
  induction ls generalizing s with
  | nil =>
      cases h
      exact hs
  | cons l ls ih =>
      obtain ⟨hok, r, hr, hm⟩ := hm
      rw [run_cons _ hr] at h
      exact ih (.step hs hok hr) hm h

/-- A schedule that can be followed stays within the reachable states. -/
theorem Reachable.run {s t : σ} (hs : S.Reachable s) (ls : List ℓ)
    (h : S.run s ls = some t) : S.Reachable t := by
  induction ls generalizing s with
  | nil =>
      cases h
      exact hs
  | cons l ls ih =>
      obtain ⟨r, hr, hrun⟩ := Option.bind_eq_some_iff.mp h
      exact ih (.step hs trivial hr) hrun

section
variable {γ : Type*} {start : γ} {note : γ → σ → ℓ → σ → γ} {ok : σ → ℓ → Prop}

/-- **The invariant rule** for a system and its notes. -/
theorem ReachableUnder.watched_invariant {I : σ → γ → Prop}
    (hinit : ∀ s, S.Init s → I s start)
    (hstep : ∀ s g l t, I s g → ok s l → S.step s l = some t → I t (note g s l t))
    {x : σ × γ} (h : (S.watched start note).ReachableUnder (fun y => ok y.1) x) : I x.1 x.2 := by
  apply h.invariant (I := fun y => I y.1 y.2)
  · rintro ⟨s, g⟩ ⟨hs, rfl⟩
    exact hinit s hs
  · rintro ⟨s, g⟩ l y hi hok hy
    obtain ⟨t, ht, rfl⟩ := Option.map_eq_some_iff.mp hy
    exact hstep s g l t hi hok ht

/-- Every run can be watched. -/
theorem ReachableUnder.watched (start : γ) (note : γ → σ → ℓ → σ → γ) {s : σ}
    (h : S.ReachableUnder ok s) :
    ∃ g, (S.watched start note).ReachableUnder (fun y => ok y.1) (s, g) := by
  induction h with
  | init h0 => exact ⟨start, .init ⟨h0, rfl⟩⟩
  | @step s t l _ hok hs ih =>
      obtain ⟨g, hg⟩ := ih
      refine ⟨note g s l t, .step hg hok ?_⟩
      show (S.step s l).map _ = _
      rw [hs]
      rfl

end

theorem Leads.single {s t : σ} {l : ℓ} (h : S.step s l = some t) : S.Leads s t :=
  Relation.ReflTransGen.single ⟨l, h⟩

theorem Leads.trans {s t u : σ} (h : S.Leads s t) (hrest : S.Leads t u) : S.Leads s u :=
  Relation.ReflTransGen.trans h hrest

theorem Leads.exists_run {s t : σ} (h : S.Leads s t) : ∃ ls, S.run s ls = some t := by
  induction h with
  | refl => exact ⟨[], rfl⟩
  | tail _ hlast ih =>
      obtain ⟨ls, hrun⟩ := ih
      obtain ⟨l, hl⟩ := hlast
      exact ⟨ls ++ [l], (run_append [l] hrun).trans (run_cons [] hl)⟩

/-- What every step keeps is kept on the way from one state to another. -/
theorem Leads.invariant {I : σ → Prop} (hstep : ∀ s l t, I s → S.step s l = some t → I t)
    {s t : σ} (h : S.Leads s t) (hs : I s) : I t := by
  induction h with
  | refl => exact hs
  | tail _ hlast ih =>
      obtain ⟨l, hl⟩ := hlast
      exact hstep _ l _ ih hl

theorem Reachable.leads {t : σ} (h : S.Reachable t) : ∃ s, S.Init s ∧ S.Leads s t := by
  induction h with
  | init h0 => exact ⟨_, h0, Relation.ReflTransGen.refl⟩
  | step _ _ hs ih =>
      obtain ⟨s, h0, hleads⟩ := ih
      exact ⟨s, h0, hleads.trans (.single hs)⟩

/-- **A run that ends passes through every reachable state**, where there is one run only:
the system starts in one state, and has one label. -/
theorem Reachable.leads_to_end [Subsingleton ℓ] {s₀ s t : σ} (hinit : ∀ u, S.Init u → u = s₀)
    (hend : S.Leads s₀ t) (hstuck : ∀ l, S.step t l = none) (hs : S.Reachable s) :
    S.Leads s t := by
  have hunique : Relator.RightUnique fun u v => ∃ l, S.step u l = some v := by
    rintro u v w ⟨l, hv⟩ ⟨l', hw⟩
    rw [Subsingleton.elim l l', hw] at hv
    exact (Option.some.inj hv).symm
  obtain ⟨u, hu, hleads⟩ := hs.leads
  rw [hinit u hu] at hleads
  rcases Relation.ReflTransGen.total_of_right_unique hunique hleads hend with h | h
  · exact h
  · rcases h.cases_head with rfl | ⟨v, ⟨l, hl⟩, -⟩
    · exact Relation.ReflTransGen.refl
    · rw [hstuck l] at hl
      cases hl

end System

end Transition
