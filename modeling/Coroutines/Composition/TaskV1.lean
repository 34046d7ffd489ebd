import Coroutines.Composition
import Mathlib.Data.List.Perm.Basic
import Mathlib.Data.List.Range

/-!
# Composing tasks with continuations

`basics/composition/task_v1.hpp`. To await a task stores the awaiting coroutine in the promise
of the task and resumes the task; at its final suspend the task resumes what is stored. Both
are calls, nested inside one another, so control comes back to an awaiting coroutine deep in
the native stack, and all of it returns in the end.
-/

namespace Coroutines.Composition.V1

open Transition System Function Loop

variable {α : Type}

/-- How many coroutines a run of the body creates. -/
def creates : Body α → ℕ
  | .done => 0
  | .step _ rest => creates rest
  | .await child rest => 1 + creates child + creates rest

/-! ## The version -/

/-- The promise holds the awaiting coroutine. -/
abbrev State (α : Type) := Composition.State (Option ℕ) α

def coAwait (s : State α) (h : ℕ) (stack : List Activation) (child rest : Body α) :
    Option (State α) := do
  let (c, frames) ← s.callChild none h child rest
  let frames ← frames.modify c fun f => { f with promise := some h }
  State.resume { s with frames := frames, stack := .awaitSuspend h :: stack } c

def finalSuspend (s : State α) (h : ℕ) (stack : List Activation) : Option (State α) := do
  let f ← s.frames.cells h
  let s ← s.finish h (.finalSuspend h :: stack)
  match f.promise with
  | some k => s.resume k
  | none => some s

def task : Version (Option ℕ) α where
  promise := none
  coAwait := coAwait
  finalSuspend := finalSuspend

/-! ## One step of a coroutine -/

section
variable {s : State α} {h : ℕ} {stack : List Activation}

theorem step_coAwait {child rest : Body α} {k : Option ℕ}
    (hstack : s.stack = .running h :: stack)
    (hf : s.frames.cells h = some ⟨.await child rest, .running, k, none⟩) :
    ∃ frames, task.step s = some { s with
        frames := frames
        stack := .running s.frames.fresh :: .awaitSuspend h :: stack } ∧
      frames.cells = update (update s.frames.cells h
          (some ⟨rest, .suspended, k, some s.frames.fresh⟩))
        s.frames.fresh (some ⟨child, .running, some h, none⟩) ∧
      frames.fresh = s.frames.fresh + 1 := by
  have hne : h ≠ s.frames.fresh := Nat.ne_of_lt (Heap.lt_fresh hf)
  obtain ⟨frames₁, hcall, hcells₁, hfresh₁⟩ := callChild_spec none hf
  have hc₁ : frames₁.cells s.frames.fresh = some (.create none child) := by
    rw [hcells₁, update_of_ne hne.symm, update_self]
  obtain ⟨frames₂, hmod, hcells₂, hfresh₂⟩ :=
    Heap.modify_eq (fun f : Frame (Option ℕ) α => { f with promise := some h }) hc₁
  have hc₂ : frames₂.cells s.frames.fresh = some ⟨child, .suspended, some h, none⟩ := by
    rw [hcells₂, update_self]
    rfl
  obtain ⟨frames, hres, hcells, hfresh⟩ := resume_spec
    (s := { s with frames := frames₂, stack := .awaitSuspend h :: stack }) hc₂ rfl
  refine ⟨frames, ?_, ?_, ?_⟩
  · rw [step_await hstack hf, ← hres]
    simp [task, coAwait, hcall, hmod]
  · rw [hcells, hcells₂, hcells₁, update_idem, update_comm hne, update_idem,
      update_comm hne.symm]
  · rw [hfresh, hfresh₂, hfresh₁]

theorem step_final {k : ℕ} {g : Frame (Option ℕ) α} (hstack : s.stack = .running h :: stack)
    (hf : s.frames.cells h = some ⟨.done, .running, some k, none⟩)
    (hg : s.frames.cells k = some g) (hp : g.place = .suspended) (hkh : k ≠ h) :
    ∃ frames, task.step s = some { s with
        frames := frames
        finals := s.finals ++ [h]
        stack := .running k :: .finalSuspend h :: stack } ∧
      frames.cells = update (update s.frames.cells h (some ⟨.done, .final, some k, none⟩))
        k (some { g with place := .running }) ∧
      frames.fresh = s.frames.fresh := by
  obtain ⟨frames₁, hfinish, hcells₁, hfresh₁⟩ := finish_spec hf (.finalSuspend h :: stack)
  have hg₁ : frames₁.cells k = some g := by
    rw [hcells₁, update_of_ne hkh]
    exact hg
  obtain ⟨frames, hres, hcells, hfresh⟩ := resume_spec (s := { s with
    frames := frames₁, finals := s.finals ++ [h], stack := .finalSuspend h :: stack }) hg₁ hp
  refine ⟨frames, ?_, ?_, hfresh.trans hfresh₁⟩
  · rw [step_done hstack hf, ← hres]
    simp [task, finalSuspend, hf, hfinish]
  · rw [hcells, hcells₁]

/-- A task that is destroyed at its end awaits nothing. -/
theorem step_destroy {rest : Body α} {k : Option ℕ} {c : ℕ} {g : Frame (Option ℕ) α}
    (hstack : s.stack = .running h :: stack)
    (hf : s.frames.cells h = some ⟨rest, .running, k, some c⟩)
    (hg : s.frames.cells c = some g) (hp : g.place = .final) (hnone : g.awaited = none)
    (hhc : h ≠ c) :
    ∃ frames, task.step s = some { s with frames := frames } ∧
      frames.cells = update (update s.frames.cells c none) h
        (some ⟨rest, .running, k, none⟩) ∧
      frames.fresh = s.frames.fresh := by
  have hf₁ : (s.frames.free c).cells h = some ⟨rest, .running, k, some c⟩ := by
    show update s.frames.cells c none h = _
    rw [update_of_ne hhc]
    exact hf
  obtain ⟨frames, hmod, hcells, hfresh⟩ :=
    Heap.modify_eq (fun f : Frame (Option ℕ) α => { f with awaited := none }) hf₁
  have hdestroy : iterate destroyBody (s.frames.fresh + 1) (c, s.frames) =
      some (s.frames.free c) :=
    iterate_exit _ (by simp [destroyBody, hg, hp, hnone])
  refine ⟨frames, ?_, hcells, hfresh⟩
  rw [step_running hstack]
  simp [Version.stepBody, State.destroyTask, hf, hdestroy, hmod]

end

/-! ## Running a body to its end -/

/-- The call has nothing left to do but to return. -/
def Returning : Activation → Prop
  | .running _ => False
  | .awaitSuspend _ => True
  | .finalSuspend _ => True

/-- Between the two states the coroutine `h` has come to `rest` with the steps `out`, and with
`n` coroutines created on the way that have all come to their final suspend. The calls that
are left on the stack have nothing to do but to return. -/
structure Ran (h : ℕ) (k : Option ℕ) (rest : Body α) (out : List α) (n : ℕ) (s t : State α) :
    Prop where
  frame : t.frames.cells h = some ⟨rest, .running, k, none⟩
  others : ∀ a < s.frames.fresh, a ≠ h → t.frames.cells a = s.frames.cells a
  fresh : t.frames.fresh = s.frames.fresh + n
  stack : ∃ left : List Activation, (∀ a ∈ left, Returning a) ∧
    t.stack = .running h :: (left ++ s.stack.tail)
  output : t.output = s.output ++ out
  finals : ∃ done : List ℕ, done.Perm (List.range' s.frames.fresh n) ∧
    t.finals = s.finals ++ done
  main : t.main = s.main

section
variable {s t u : State α} {h : ℕ} {k : Option ℕ} {stack : List Activation} {rest : Body α}

theorem Ran.refl (hstack : s.stack = .running h :: stack)
    (hf : s.frames.cells h = some ⟨rest, .running, k, none⟩) : Ran h k rest [] 0 s s := by
  constructor
  case frame => exact hf
  case others => exact fun _ _ _ => rfl
  case fresh => rfl
  case stack =>
    refine ⟨[], fun _ ha => (List.not_mem_nil ha).elim, ?_⟩
    rw [hstack]
    rfl
  case output => exact (List.append_nil _).symm
  case finals => exact ⟨[], .refl _, (List.append_nil _).symm⟩
  case main => rfl

theorem Ran.trans {rest' : Body α} {out out' : List α} {n n' : ℕ}
    (hst : Ran h k rest out n s t) (htu : Ran h k rest' out' n' t u) :
    Ran h k rest' (out ++ out') (n + n') s u := by
  constructor
  case frame => exact htu.frame
  case others =>
    intro a ha hne
    rw [htu.others a (by rw [hst.fresh]; exact Nat.lt_add_right n ha) hne, hst.others a ha hne]
  case fresh => rw [htu.fresh, hst.fresh, Nat.add_assoc]
  case stack =>
    obtain ⟨left, hleft, hstack⟩ := hst.stack
    obtain ⟨left', hleft', hstack'⟩ := htu.stack
    refine ⟨left' ++ left, fun a ha => ?_, ?_⟩
    · rcases List.mem_append.mp ha with ha | ha
      · exact hleft' a ha
      · exact hleft a ha
    · rw [hstack', hstack, List.append_assoc]
      rfl
  case output => rw [htu.output, hst.output, List.append_assoc]
  case finals =>
    obtain ⟨done, hperm, hdone⟩ := hst.finals
    obtain ⟨done', hperm', hdone'⟩ := htu.finals
    rw [hst.fresh] at hperm'
    refine ⟨done ++ done', ?_, by rw [hdone', hdone, List.append_assoc]⟩
    rw [← List.range'_append_1]
    exact hperm.append hperm'
  case main => exact htu.main.trans hst.main

theorem ran_visible {x : α} (hstack : s.stack = .running h :: stack)
    (hf : s.frames.cells h = some ⟨.step x rest, .running, k, none⟩) :
    ∃ t, task.step s = some t ∧ Ran h k rest [x] 0 s t := by
  obtain ⟨frames, hstep, hcells, hfresh⟩ := step_visible hstack hf
  refine ⟨_, hstep, ?_⟩
  constructor
  case frame => rw [hcells, update_self]
  case others =>
    intro a _ hne
    rw [hcells, update_of_ne hne]
  case fresh => exact hfresh
  case stack =>
    refine ⟨[], fun _ ha => (List.not_mem_nil ha).elim, ?_⟩
    show s.stack = _
    rw [hstack]
    rfl
  case output => rfl
  case finals => exact ⟨[], .refl _, (List.append_nil _).symm⟩
  case main => rfl

/-- **A child that runs to its end comes back**: it is created and resumed by its parent, and
resumes the parent from its final suspend, to be destroyed there. -/
theorem ran_await {root child : Body α}
    (hchild : ∀ {s : State α} {h : ℕ} {k : Option ℕ} {stack : List Activation},
      s.stack = .running h :: stack → s.frames.cells h = some ⟨child, .running, k, none⟩ →
      ∃ t, (task.drive root).Leads s t ∧ Ran h k .done child.calls (creates child) s t)
    (hstack : s.stack = .running h :: stack)
    (hf : s.frames.cells h = some ⟨.await child rest, .running, k, none⟩) :
    ∃ t, (task.drive root).Leads s t ∧ Ran h k rest child.calls (1 + creates child) s t := by
  have hlt : h < s.frames.fresh := Heap.lt_fresh hf
  have hne : h ≠ s.frames.fresh := Nat.ne_of_lt hlt
  obtain ⟨frames₁, hstep₁, hcells₁, hfresh₁⟩ := step_coAwait hstack hf
  obtain ⟨s₂, hleads₂, h₂⟩ := hchild (s := { s with
    frames := frames₁
    stack := .running s.frames.fresh :: .awaitSuspend h :: stack }) rfl
    (by rw [hcells₁, update_self])
  have hkeep₂ : ∀ a < s.frames.fresh, s₂.frames.cells a = frames₁.cells a := fun a ha =>
    h₂.others a (by rw [hfresh₁]; exact Nat.lt_succ_of_lt ha) (Nat.ne_of_lt ha)
  have hparent₂ : s₂.frames.cells h = some ⟨rest, .suspended, k, some s.frames.fresh⟩ := by
    rw [hkeep₂ h hlt, hcells₁, update_of_ne hne, update_self]
  obtain ⟨left, hleft, hstack₂⟩ := h₂.stack
  obtain ⟨frames₃, hstep₃, hcells₃, hfresh₃⟩ := step_final hstack₂ h₂.frame hparent₂ rfl hne
  obtain ⟨frames₄, hstep₄, hcells₄, hfresh₄⟩ := step_destroy
    (s := { s₂ with
      frames := frames₃
      finals := s₂.finals ++ [s.frames.fresh]
      stack := .running h :: .finalSuspend s.frames.fresh ::
        (left ++ .awaitSuspend h :: stack) })
    rfl (by rw [hcells₃, update_self]) (by rw [hcells₃, update_of_ne hne.symm, update_self])
    rfl rfl hne
  refine ⟨_, Leads.trans (.single (l := ()) hstep₁) (hleads₂.trans
    (Leads.trans (.single (l := ()) hstep₃) (.single (l := ()) hstep₄))), ?_⟩
  constructor
  case frame => rw [hcells₄, update_self]
  case others =>
    intro a ha hah
    have hac : a ≠ s.frames.fresh := Nat.ne_of_lt ha
    rw [hcells₄, update_of_ne hah, update_of_ne hac, hcells₃, update_of_ne hah,
      update_of_ne hac, hkeep₂ a ha, hcells₁, update_of_ne hac, update_of_ne hah]
  case fresh =>
    show frames₄.fresh = _
    rw [hfresh₄, hfresh₃, h₂.fresh, ← Nat.add_assoc]
    rw [hfresh₁]
  case stack =>
    refine ⟨.finalSuspend s.frames.fresh :: (left ++ [.awaitSuspend h]), ?_, ?_⟩
    · intro a ha
      rcases List.mem_cons.mp ha with rfl | ha
      · trivial
      rcases List.mem_append.mp ha with ha | ha
      · exact hleft a ha
      · rw [List.mem_singleton.mp ha]
        trivial
    · rw [hstack]
      simp
  case output => exact h₂.output
  case finals =>
    obtain ⟨done, hperm, hdone⟩ := h₂.finals
    rw [hfresh₁] at hperm
    refine ⟨done ++ [s.frames.fresh], ?_, ?_⟩
    · rw [← List.range'_append_1]
      exact List.perm_append_comm.trans (hperm.append_left [s.frames.fresh])
    · show s₂.finals ++ [s.frames.fresh] = _
      rw [hdone, List.append_assoc]
  case main => exact h₂.main

end

/-- **A body runs to its end**, by induction on the body. -/
theorem ran_body (root body : Body α) :
    ∀ {s : State α} {h : ℕ} {k : Option ℕ} {stack : List Activation},
      s.stack = .running h :: stack → s.frames.cells h = some ⟨body, .running, k, none⟩ →
      ∃ t, (task.drive root).Leads s t ∧ Ran h k .done body.calls (creates body) s t := by
  induction body with
  | done =>
      intro s h k stack hstack hf
      exact ⟨s, .refl, .refl hstack hf⟩
  | step x rest ih =>
      intro s h k stack hstack hf
      obtain ⟨t, hstep, ht⟩ := ran_visible hstack hf
      obtain ⟨left, -, hstack'⟩ := ht.stack
      obtain ⟨u, hleads, hu⟩ := ih hstack' ht.frame
      refine ⟨u, Leads.trans (.single (l := ()) hstep) hleads, ?_⟩
      have hall := ht.trans hu
      rw [Nat.zero_add] at hall
      exact hall
  | await child rest ihchild ihrest =>
      intro s h k stack hstack hf
      obtain ⟨t, hleads, ht⟩ := ran_await ihchild hstack hf
      obtain ⟨left, -, hstack'⟩ := ht.stack
      obtain ⟨u, hleads', hu⟩ := ihrest hstack' ht.frame
      exact ⟨u, hleads.trans hleads', ht.trans hu⟩

/-! ## Driving the root -/

/-- Nobody awaits the root. -/
theorem step_final_root {s : State α} {h : ℕ} {stack : List Activation}
    (hstack : s.stack = .running h :: stack)
    (hf : s.frames.cells h = some ⟨.done, .running, none, none⟩) :
    ∃ frames, task.step s = some { s with
        frames := frames
        finals := s.finals ++ [h]
        stack := .finalSuspend h :: stack } ∧
      frames.cells = update s.frames.cells h (some ⟨.done, .final, none, none⟩) ∧
      frames.fresh = s.frames.fresh := by
  obtain ⟨frames, hfinish, hcells, hfresh⟩ := finish_spec hf (.finalSuspend h :: stack)
  refine ⟨frames, ?_, hcells, hfresh⟩
  rw [step_done hstack hf]
  simp [task, finalSuspend, hf, hfinish]

/-- The calls that have nothing left to do return, one by one. -/
theorem leads_return (root : Body α) (stack : List Activation) :
    ∀ s : State α, s.stack = stack → (∀ a ∈ stack, Returning a) →
      (task.drive root).Leads s { s with stack := [] } := by
  induction stack with
  | nil =>
      intro s hstack _
      rw [← hstack]
      exact .refl
  | cons a stack ih =>
      intro s hstack hreturning
      have hstep : task.step s = some { s with stack := stack } := by
        have ha := hreturning a List.mem_cons_self
        rcases a with h | h | h
        · cases ha
        · rw [Version.step, hstack]
        · rw [Version.step, hstack]
      exact Leads.trans (.single (l := ()) hstep)
        (ih { s with stack := stack } rfl fun b hb => hreturning b (List.mem_cons_of_mem _ hb))

/-- **Driving the root is calling the bodies**, for every tree of tasks: every run comes to the
one end where the loop is over and the root is done, with the steps in the order of the calls
and every coroutine at its final suspend once. -/
theorem drive_calls (body : Body α) :
    ∃ t, (task.drive body).Leads (task.initial body) t ∧
      (∀ s, (task.drive body).Reachable s → (task.drive body).Leads s t) ∧
      t.main = .finished ∧ task.step t = none ∧ t.output = body.calls ∧
      t.frames.fresh = 1 + creates body ∧ t.finals.Perm (List.range t.frames.fresh) ∧
      ∃ f, t.frames.cells 0 = some f ∧ f.place = .final := by
  obtain ⟨frames₁, hstep₀, hcells₁, hfresh₁⟩ := step_initial task body
  obtain ⟨s₁, hs₁⟩ : ∃ s₁, s₁ = { task.initial body with
    main := .called, frames := frames₁, stack := [.running 0] } := ⟨_, rfl⟩
  have hstep₁ : task.step (task.initial body) = some s₁ := by
    rw [hs₁]
    exact hstep₀
  obtain ⟨s₂, hleads₂, h₂⟩ := ran_body body body (s := s₁) (h := 0) (k := none)
    (by rw [hs₁]) (by rw [hs₁]; exact hcells₁ ▸ update_self ..)
  obtain ⟨left, hreturning, hstack₂⟩ := h₂.stack
  obtain ⟨frames₃, hstep₃, hcells₃, hfresh₃⟩ := step_final_root hstack₂ h₂.frame
  have hmain : s₂.main = .called := by rw [h₂.main, hs₁]
  have hfinal : frames₃.cells 0 = some ⟨.done, .final, none, none⟩ := by
    rw [hcells₃, update_self]
  have hfresh : frames₃.fresh = 1 + creates body := by
    rw [hfresh₃, h₂.fresh, hs₁]
    show frames₁.fresh + _ = _
    rw [hfresh₁]
  obtain ⟨t, ht⟩ : ∃ t, t = { s₂ with
    frames := frames₃, finals := s₂.finals ++ [0], stack := [], main := .finished } := ⟨_, rfl⟩
  have hend : task.step t = none := by
    rw [ht]
    exact step_finished rfl rfl
  have hcalled : task.step { s₂ with
      frames := frames₃, finals := s₂.finals ++ [0], stack := [] } = some t := by
    rw [ht]
    exact step_called (s := { s₂ with
      frames := frames₃, finals := s₂.finals ++ [0], stack := [] }) rfl hmain hfinal
  have hleads : (task.drive body).Leads (task.initial body) t := by
    refine Leads.trans (.single (l := ()) hstep₁) (hleads₂.trans ?_)
    apply Leads.trans (.single (l := ()) hstep₃)
    refine Leads.trans (leads_return body _ _ rfl ?_) (.single (l := ()) hcalled)
    intro a ha
    rw [hs₁] at ha
    rcases List.mem_cons.mp ha with rfl | ha
    · trivial
    · rw [List.tail_cons, List.append_nil] at ha
      exact hreturning a ha
  refine ⟨t, hleads, fun s hs => hs.leads_to_end (fun _ h => h) hleads fun _ => hend, ?_⟩
  obtain ⟨done, hperm, hdone⟩ := h₂.finals
  rw [ht] at hend ⊢
  refine ⟨rfl, hend, ?_, hfresh, ?_, _, hfinal, rfl⟩
  · show s₂.output = _
    rw [h₂.output, hs₁]
    rfl
  · show (s₂.finals ++ [0]).Perm (List.range frames₃.fresh)
    have hone : s₁.frames.fresh = 0 + 1 := by
      rw [hs₁]
      exact hfresh₁
    rw [hone] at hperm
    rw [hdone, hfresh, hs₁, List.range_eq_range', ← List.range'_append_1]
    exact List.perm_append_comm.trans (hperm.append_left [0])

end Coroutines.Composition.V1
