import Coroutines.Composition
import Coroutines.Lib.Links
import Coroutines.Lib.Loop

/-!
# Composing tasks without continuations

`basics/composition/task_v0.hpp`. To await a task resumes the task, and that is all: the task does
not know who awaits it, so nothing resumes the awaiting coroutine but the one that resumed it
before. A child runs up to its own first `co_await`, and so does the child awaited there. Then
control falls back to `while (t.resume());`, which resumes the root, and the root destroys
what it awaited, finished or not.
-/

namespace Coroutines.Composition.V0

open Transition System Links Loop
open Function (update update_self update_of_ne)

variable {α : Type}

/-! ## What is run, and what is dropped -/

/-- The steps of a coroutine that is resumed once. -/
def enters : Body α → List α
  | .done => []
  | .step x rest => x :: enters rest
  | .await child _ => enters child

/-- The steps of the root. -/
def drives : Body α → List α
  | .done => []
  | .step x rest => x :: drives rest
  | .await child rest => enters child ++ drives rest

/-- The steps that are dropped where a coroutine is resumed once: what follows its first await. -/
def cuts : Body α → ℕ
  | .done => 0
  | .step _ rest => cuts rest
  | .await child rest => cuts child + rest.calls.length

/-- The steps that the whole program drops. -/
def drops : Body α → ℕ
  | .done => 0
  | .step _ rest => drops rest
  | .await child rest => cuts child + drops rest

theorem enters_sublist (body : Body α) : (enters body).Sublist body.calls := by
  induction body with
  | done => exact .refl _
  | step x rest ih => exact ih.cons_cons x
  | await child rest ih _ => exact ih.trans (List.sublist_append_left _ _)

theorem drives_sublist (body : Body α) : (drives body).Sublist body.calls := by
  induction body with
  | done => exact .refl _
  | step x rest ih => exact ih.cons_cons x
  | await child rest _ ih => exact (enters_sublist child).append ih

theorem length_enters (body : Body α) :
    (enters body).length + cuts body = body.calls.length := by
  induction body with
  | done => rfl
  | step x rest ih =>
      simp only [enters, cuts, Body.calls, List.length_cons]
      omega
  | await child rest ih _ =>
      simp only [enters, cuts, Body.calls, List.length_append]
      omega

theorem length_drives (body : Body α) :
    (drives body).length + drops body = body.calls.length := by
  induction body with
  | done => rfl
  | step x rest ih =>
      simp only [drives, drops, Body.calls, List.length_cons]
      omega
  | await child rest _ ih =>
      have hchild := length_enters child
      simp only [drives, drops, Body.calls, List.length_append]
      omega

/-- **Nothing is missing exactly when nothing is dropped.** -/
theorem drives_eq_calls_iff (body : Body α) : drives body = body.calls ↔ drops body = 0 := by
  have hlength := length_drives body
  constructor
  · intro heq
    rw [heq] at hlength
    omega
  · intro hnone
    apply (drives_sublist body).eq_of_length
    omega

/-- The coroutines that the resumption of one creates, one awaited by the other. -/
def depth : Body α → ℕ
  | .done => 0
  | .step _ rest => depth rest
  | .await child _ => depth child + 1

/-- The coroutines that the root creates, and how often it awaits. -/
def creates : Body α → ℕ
  | .done => 0
  | .step _ rest => creates rest
  | .await child rest => depth child + 1 + creates rest

def awaits : Body α → ℕ
  | .done => 0
  | .step _ rest => awaits rest
  | .await _ rest => awaits rest + 1

/-! ## The version -/

/-- `task_promise` has no members. -/
abbrev State (α : Type) := Composition.State Unit α

def coAwait (s : State α) (h : ℕ) (stack : List Activation) (child rest : Body α) :
    Option (State α) := do
  let (c, frames) ← s.callChild () h child rest
  State.resume { s with frames := frames, stack := .awaitSuspend h :: stack } c

def task : Version Unit α where
  promise := ()
  coAwait := coAwait
  -- control goes back to the `resume`
  finalSuspend s h stack := s.finish h stack

/-! ## One step of a coroutine -/

/-- The task that a coroutine awaits. -/
def awaitedBy (frames : Heap (Frame Unit α)) (a : ℕ) : Option ℕ :=
  (frames.cells a).bind Frame.awaited

section
variable {s : State α} {h : ℕ} {stack : List Activation}

theorem awaitedBy_of_cell {frames : Heap (Frame Unit α)} {f : Frame Unit α}
    (hf : frames.cells h = some f) : awaitedBy frames h = f.awaited := by
  rw [awaitedBy, hf]
  rfl

theorem step_coAwait {child rest : Body α} (hstack : s.stack = .running h :: stack)
    (hf : s.frames.cells h = some ⟨.await child rest, .running, (), none⟩) :
    ∃ frames, task.step s = some { s with
        frames := frames
        stack := .running s.frames.fresh :: .awaitSuspend h :: stack } ∧
      frames.cells = update (update s.frames.cells h
          (some ⟨rest, .suspended, (), some s.frames.fresh⟩))
        s.frames.fresh (some ⟨child, .running, (), none⟩) ∧
      frames.fresh = s.frames.fresh + 1 := by
  have hne : h ≠ s.frames.fresh := Nat.ne_of_lt (Heap.lt_fresh hf)
  obtain ⟨frames₁, hcall, hcells₁, hfresh₁⟩ := callChild_spec () hf
  have hc₁ : frames₁.cells s.frames.fresh = some (.create () child) := by
    rw [hcells₁, update_of_ne hne.symm, update_self]
  obtain ⟨frames, hres, hcells, hfresh⟩ := resume_spec
    (s := { s with frames := frames₁, stack := .awaitSuspend h :: stack }) hc₁ rfl
  refine ⟨frames, ?_, ?_, hfresh.trans hfresh₁⟩
  · rw [step_await hstack hf, ← hres]
    simp [task, coAwait, hcall]
  · rw [hcells, hcells₁, Function.update_comm hne.symm, Function.update_idem]
    rfl

theorem step_final (hstack : s.stack = .running h :: stack)
    (hf : s.frames.cells h = some ⟨.done, .running, (), none⟩) :
    ∃ frames, task.step s = some { s with
        frames := frames, finals := s.finals ++ [h], stack := stack } ∧
      frames.cells = update s.frames.cells h (some ⟨.done, .final, (), none⟩) ∧
      frames.fresh = s.frames.fresh := by
  obtain ⟨frames, hfinish, hcells, hfresh⟩ := finish_spec hf stack
  exact ⟨frames, (step_done hstack hf).trans hfinish, hcells, hfresh⟩

/-- **Destroying a task destroys what it awaits**, down to the last, and nothing else. -/
theorem destroy_chain {frames : Heap (Frame Unit α)} {c fuel : ℕ} {l : List ℕ}
    (hchain : Chain (awaitedBy frames) (some c) l) (hnd : l.Nodup)
    (hstill : ∀ a ∈ l, ∃ f, frames.cells a = some f ∧ f.place ≠ .running)
    (hfuel : l.length ≤ fuel) :
    ∃ frames', iterate destroyBody fuel (c, frames) = some frames' ∧
      (∀ a ∈ l, frames'.cells a = none) ∧ (∀ a ∉ l, frames'.cells a = frames.cells a) ∧
      frames'.fresh = frames.fresh := by
  induction l generalizing c frames fuel with
  | nil => cases hchain
  | cons a l ih =>
      obtain ⟨hca, hrest⟩ := hchain
      obtain rfl := Option.some.inj hca
      obtain ⟨fuel, rfl⟩ : ∃ n, fuel = n + 1 := ⟨fuel - 1, by simp at hfuel; omega⟩
      obtain ⟨hnot, hnd⟩ := List.nodup_cons.mp hnd
      obtain ⟨f, hf, hplace⟩ := hstill c List.mem_cons_self
      have hfree : ∀ x, x ≠ c → (frames.free c).cells x = frames.cells x :=
        fun x hx => update_of_ne hx ..
      have hgone : (frames.free c).cells c = none := update_self ..
      rw [awaitedBy_of_cell hf] at hrest
      rcases hawaited : f.awaited with _ | d
      · rw [hawaited, chain_none] at hrest
        subst hrest
        refine ⟨frames.free c, iterate_exit fuel (by simp [destroyBody, hf, hplace, hawaited]),
          ?_, ?_, rfl⟩
        · intro x hx
          rw [List.mem_singleton.mp hx]
          exact hgone
        · intro x hx
          exact hfree x fun hxc => hx (List.mem_singleton.mpr hxc)
      · rw [hawaited] at hrest
        have hne : ∀ x ∈ l, x ≠ c := fun x hx hxc => hnot (hxc ▸ hx)
        have hchain : Chain (awaitedBy (frames.free c)) (some d) l :=
          hrest.congr fun x hx => by rw [awaitedBy, awaitedBy, hfree x (hne x hx)]
        obtain ⟨frames', hframes', hnone, hsame, hfresh⟩ := ih hchain hnd
          (fun x hx => by rw [hfree x (hne x hx)]; exact hstill x (List.mem_cons_of_mem _ hx))
          (Nat.le_of_succ_le_succ hfuel)
        refine ⟨frames', ?_, ?_, ?_, hfresh⟩
        · rw [iterate_next (t := (d, frames.free c)) fuel
            (by simp [destroyBody, hf, hplace, hawaited])]
          exact hframes'
        · intro x hx
          rcases List.mem_cons.mp hx with rfl | hx
          · rw [hsame x hnot, hgone]
          · exact hnone x hx
        · intro x hx
          rw [List.mem_cons, not_or] at hx
          rw [hsame x hx.2, hfree x hx.1]

end

/-! ## A coroutine that is resumed once -/

/-- Between the two states the coroutine `h` was resumed, ran up to its first await, or to its
end, and gave control back. What it created hangs on it, one task awaited by the other. -/
structure Entered (h : ℕ) (body : Body α) (s t : State α) : Prop where
  others : ∀ a < s.frames.fresh, a ≠ h → t.frames.cells a = s.frames.cells a
  fresh : t.frames.fresh = s.frames.fresh + depth body
  chain : Chain (awaitedBy t.frames) (some h) (h :: List.range' s.frames.fresh (depth body))
  still : ∀ a ∈ h :: List.range' s.frames.fresh (depth body),
    ∃ f, t.frames.cells a = some f ∧ f.place ≠ .running
  stack : t.stack = s.stack.tail
  output : t.output = s.output ++ enters body
  finals : ∃ d, t.finals = s.finals ++ [d]
  main : t.main = s.main

/-- **A coroutine that is resumed** runs up to its first await, and so does what it awaits
there, by induction on the body. -/
theorem enter_body (root body : Body α) :
    ∀ {s : State α} {h : ℕ} {stack : List Activation}, s.stack = .running h :: stack →
      s.frames.cells h = some ⟨body, .running, (), none⟩ →
      ∃ t, (task.drive root).Leads s t ∧ Entered h body s t := by
  induction body with
  | done =>
      intro s h stack hstack hf
      obtain ⟨frames, hstep, hcells, hfresh⟩ := step_final hstack hf
      have hframe : frames.cells h = some ⟨.done, .final, (), none⟩ := by rw [hcells, update_self]
      refine ⟨_, .single (l := ()) hstep, ?_⟩
      constructor
      case others =>
        intro a _ hne
        rw [hcells, update_of_ne hne]
      case fresh => exact hfresh
      case chain => exact ⟨rfl, awaitedBy_of_cell hframe⟩
      case still =>
        intro a ha
        rw [List.mem_singleton.mp ha]
        exact ⟨_, hframe, Place.noConfusion⟩
      case stack => rw [hstack]; rfl
      case output => exact (List.append_nil _).symm
      case finals => exact ⟨h, rfl⟩
      case main => rfl
  | step x rest ih =>
      intro s h stack hstack hf
      obtain ⟨frames, hstep, hcells, hfresh⟩ := step_visible hstack hf
      obtain ⟨t, hleads, ht⟩ := ih (s := { s with frames := frames, output := s.output ++ [x] })
        hstack (by rw [hcells, update_self])
      have hothers := ht.others
      have hchain := ht.chain
      have hstill := ht.still
      simp only [hfresh] at hothers hchain hstill
      refine ⟨t, Leads.trans (.single (l := ()) hstep) hleads, ?_⟩
      constructor
      case others =>
        intro a ha hne
        rw [hothers a ha hne, hcells, update_of_ne hne]
      case fresh => rw [ht.fresh, hfresh]; rfl
      case chain => exact hchain
      case still => exact hstill
      case stack => exact ht.stack
      case output =>
        rw [ht.output, List.append_assoc]
        rfl
      case finals => exact ht.finals
      case main => exact ht.main
  | await child rest ih _ =>
      intro s h stack hstack hf
      have hlt : h < s.frames.fresh := Heap.lt_fresh hf
      have hne : h ≠ s.frames.fresh := Nat.ne_of_lt hlt
      obtain ⟨frames₁, hstep₁, hcells₁, hfresh₁⟩ := step_coAwait hstack hf
      obtain ⟨t, hleads, ht⟩ := ih (s := { s with
        frames := frames₁
        stack := .running s.frames.fresh :: .awaitSuspend h :: stack }) rfl
        (by rw [hcells₁, update_self])
      have hothers := ht.others
      have hchain := ht.chain
      have hstill := ht.still
      have hfresh := ht.fresh
      simp only [hfresh₁] at hothers hchain hstill hfresh
      have hparent : t.frames.cells h = some ⟨rest, .suspended, (), some s.frames.fresh⟩ := by
        rw [hothers h (Nat.lt_succ_of_lt hlt) hne, hcells₁, update_of_ne hne, update_self]
      have hreturn : task.step t = some { t with stack := stack } := by
        rw [Version.step, ht.stack]
        rfl
      refine ⟨{ t with stack := stack }, Leads.trans (.single (l := ()) hstep₁)
        (hleads.trans (.single (l := ()) hreturn)), ?_⟩
      constructor
      case others =>
        intro a ha hah
        have hac : a ≠ s.frames.fresh := Nat.ne_of_lt ha
        show t.frames.cells a = _
        rw [hothers a (Nat.lt_succ_of_lt ha) hac, hcells₁, update_of_ne hac, update_of_ne hah]
      case fresh =>
        show t.frames.fresh = _
        rw [hfresh, depth]
        omega
      case chain => exact ⟨rfl, awaitedBy_of_cell hparent ▸ hchain⟩
      case still =>
        intro a ha
        rcases List.mem_cons.mp ha with rfl | ha
        · exact ⟨_, hparent, Place.noConfusion⟩
        · exact hstill a ha
      case stack => rw [hstack]; rfl
      case output => exact ht.output
      case finals => exact ht.finals
      case main => exact ht.main

/-! ## Driving the root -/

/-- The root runs at the bottom of the stack, and is all that lives. -/
structure Alone (rest : Body α) (s : State α) : Prop where
  stack : s.stack = [.running 0]
  root : s.frames.cells 0 = some ⟨rest, .running, (), none⟩
  others : ∀ a, a ≠ 0 → s.frames.cells a = none
  main : s.main = .called

/-- **A child that was awaited is destroyed** where the root goes on: the loop resumes the root,
and not what the child has left. -/
theorem Alone.await (root : Body α) {child rest : Body α} {s : State α}
    (h : Alone (.await child rest) s) :
    ∃ t, (task.drive root).Leads s t ∧ Alone rest t ∧ t.output = s.output ++ enters child ∧
      t.frames.fresh = s.frames.fresh + (depth child + 1) ∧
      t.finals.length = s.finals.length + 1 := by
  have hlt : 0 < s.frames.fresh := Heap.lt_fresh h.root
  have hne : s.frames.fresh ≠ 0 := Nat.ne_of_gt hlt
  obtain ⟨frames₁, hstep₁, hcells₁, hfresh₁⟩ := step_coAwait h.stack h.root
  obtain ⟨t, hleads, ht⟩ := enter_body root child (s := { s with
    frames := frames₁
    stack := .running s.frames.fresh :: .awaitSuspend 0 :: [] }) rfl
    (by rw [hcells₁, update_self])
  have hothers := ht.others
  have hchain := ht.chain
  have hstill := ht.still
  have hfresh := ht.fresh
  simp only [hfresh₁] at hothers hchain hstill hfresh
  have hroot : t.frames.cells 0 = some ⟨rest, .suspended, (), some s.frames.fresh⟩ := by
    rw [hothers 0 (Nat.succ_pos _) hne.symm, hcells₁, update_of_ne hne.symm, update_self]
  have hmain : t.main = .called := ht.main.trans h.main
  -- control falls back to the loop, which resumes the root
  have hreturn : task.step t = some { t with stack := [] } := by
    rw [Version.step, ht.stack]
    rfl
  have hcalled : task.step { t with stack := [] } =
      some { t with stack := [], main := .calling } := by
    simp [Version.step, State.stepMain, hmain, hroot]
  obtain ⟨frames₂, hres₂, hcells₂, hfresh₂⟩ :=
    resume_spec (s := { t with stack := [], main := .called }) hroot rfl
  have hcalling : task.step { t with stack := [], main := .calling } =
      some { t with stack := [.running 0], main := .called, frames := frames₂ } := by
    simpa [Version.step, State.stepMain, hroot] using hres₂
  have hroot₂ : frames₂.cells 0 = some ⟨rest, .running, (), some s.frames.fresh⟩ := by
    rw [hcells₂, update_self]
  -- the root destroys the task that it awaited
  have hspine : ∀ a ∈ s.frames.fresh :: List.range' (s.frames.fresh + 1) (depth child), a ≠ 0 := by
    intro a ha
    rw [← List.range'_succ, List.mem_range'_1] at ha
    omega
  have hkeep₂ : ∀ a, a ≠ 0 → frames₂.cells a = t.frames.cells a := fun a ha => by
    rw [hcells₂, update_of_ne ha]
  have hchain₂ : Chain (awaitedBy frames₂) (some s.frames.fresh)
      (s.frames.fresh :: List.range' (s.frames.fresh + 1) (depth child)) :=
    hchain.congr fun a ha => by rw [awaitedBy, awaitedBy, hkeep₂ a (hspine a ha)]
  have hfuel : (s.frames.fresh :: List.range' (s.frames.fresh + 1) (depth child)).length ≤
      frames₂.fresh + 1 := by
    rw [List.length_cons, List.length_range', hfresh₂]
    show _ ≤ t.frames.fresh + 1
    omega
  obtain ⟨frames₃, hdestroy, hgone, hsame, hfresh₃⟩ := destroy_chain hchain₂
    (by rw [← List.range'_succ]; exact List.nodup_range')
    (fun a ha => by rw [hkeep₂ a (hspine a ha)]; exact hstill a ha) hfuel
  have hroot₃ : frames₃.cells 0 = some ⟨rest, .running, (), some s.frames.fresh⟩ := by
    rw [hsame 0 fun h0 => hspine 0 h0 rfl, hroot₂]
  obtain ⟨frames₄, hmod₄, hcells₄, hfresh₄⟩ :=
    Heap.modify_eq (fun f : Frame Unit α => { f with awaited := none }) hroot₃
  have hdestroyed : task.step { t with
      stack := [.running 0], main := .called, frames := frames₂ } =
      some { t with stack := [.running 0], main := .called, frames := frames₄ } := by
    simp [Version.step, Version.stepBody, hroot₂, State.destroyTask, hdestroy, hmod₄]
  refine ⟨_, Leads.trans (.single (l := ()) hstep₁) (hleads.trans
    (Leads.trans (.single (l := ()) hreturn) (Leads.trans (.single (l := ()) hcalled)
      (Leads.trans (.single (l := ()) hcalling) (.single (l := ()) hdestroyed))))), ?_, ?_, ?_, ?_⟩
  · constructor
    case stack => rfl
    case root => rw [hcells₄, update_self]
    case others =>
      intro a ha
      show frames₄.cells a = none
      rw [hcells₄, update_of_ne ha]
      by_cases hspined : a ∈ s.frames.fresh :: List.range' (s.frames.fresh + 1) (depth child)
      · exact hgone a hspined
      · rw [hsame a hspined, hkeep₂ a ha]
        rw [← List.range'_succ, List.mem_range'_1, not_and_or] at hspined
        rcases hspined with hold | hnew
        · have hac : a ≠ s.frames.fresh := by omega
          rw [hothers a (by omega) hac, hcells₁, update_of_ne hac, update_of_ne ha, h.others a ha]
        · exact t.frames.unused a (by omega)
    case main => rfl
  · exact ht.output
  · show frames₄.fresh = _
    rw [hfresh₄, hfresh₃, hfresh₂]
    show t.frames.fresh = _
    omega
  · obtain ⟨d, hd⟩ := ht.finals
    show t.finals.length = _
    rw [hd, List.length_append]
    rfl

/-- The loop is over. -/
structure Over (s : State α) : Prop where
  main : s.main = .finished
  stack : s.stack = []
  root : ∃ f, s.frames.cells 0 = some f ∧ f.place = .final
  others : ∀ a, a ≠ 0 → s.frames.cells a = none

/-- **The root runs to its end**, by induction on its body. -/
theorem Alone.drives (root body : Body α) :
    ∀ {s : State α}, Alone body s → ∃ t, (task.drive root).Leads s t ∧ Over t ∧
      t.output = s.output ++ drives body ∧ t.frames.fresh = s.frames.fresh + creates body ∧
      t.finals.length = s.finals.length + (awaits body + 1) := by
  induction body with
  | done =>
      intro s h
      obtain ⟨frames, hstep, hcells, hfresh⟩ := step_final h.stack h.root
      have hroot : frames.cells 0 = some ⟨.done, .final, (), none⟩ := by rw [hcells, update_self]
      have hcalled : task.step { s with
          frames := frames, finals := s.finals ++ [0], stack := [] } = some { s with
            frames := frames, finals := s.finals ++ [0], stack := [], main := .finished } := by
        simp [Version.step, State.stepMain, h.main, hroot]
      refine ⟨_, Leads.trans (.single (l := ()) hstep) (.single (l := ()) hcalled), ?_, ?_, ?_, ?_⟩
      · refine ⟨rfl, rfl, ⟨_, hroot, rfl⟩, fun a ha => ?_⟩
        show frames.cells a = none
        rw [hcells, update_of_ne ha, h.others a ha]
      · exact (List.append_nil _).symm
      · exact hfresh
      · exact List.length_append
  | step x rest ih =>
      intro s h
      obtain ⟨frames, hstep, hcells, hfresh⟩ := step_visible h.stack h.root
      have halone : Alone rest { s with frames := frames, output := s.output ++ [x] } := by
        refine ⟨h.stack, by rw [hcells, update_self], fun a ha => ?_, h.main⟩
        show frames.cells a = none
        rw [hcells, update_of_ne ha, h.others a ha]
      obtain ⟨t, hleads, hover, houtput, hcreated, hfinals⟩ := ih halone
      refine ⟨t, Leads.trans (.single (l := ()) hstep) hleads, hover, ?_, ?_, hfinals⟩
      · rw [houtput, List.append_assoc]
        rfl
      · rw [hcreated]
        exact congrArg (· + _) hfresh
  | await child rest _ ih =>
      intro s h
      obtain ⟨t₁, hleads₁, halone, houtput₁, hcreated₁, hfinals₁⟩ := h.await root
      obtain ⟨t, hleads, hover, houtput, hcreated, hfinals⟩ := ih halone
      refine ⟨t, hleads₁.trans hleads, hover, ?_, ?_, ?_⟩
      · rw [houtput, houtput₁, List.append_assoc]
        rfl
      · rw [hcreated, hcreated₁, creates, Nat.add_assoc]
      · rw [hfinals, hfinals₁, awaits]
        omega

/-- **What the broken task runs**, for every tree of tasks: every run comes to the one end where
the loop is over. The steps are those of the nested calls but for what follows an await in a
coroutine that is not the root; nothing is missing if and only if nothing follows. As many
coroutines come to their final suspend as the root's own body awaits, and the root; all are
destroyed but the root. -/
theorem drive_steps (body : Body α) :
    ∃ t, (task.drive body).Leads (task.initial body) t ∧
      (∀ s, (task.drive body).Reachable s → (task.drive body).Leads s t) ∧ Over t ∧
      task.step t = none ∧ t.output = drives body ∧ t.output.Sublist body.calls ∧
      (t.output = body.calls ↔ drops body = 0) ∧ t.frames.fresh = 1 + creates body ∧
      t.finals.length = awaits body + 1 := by
  obtain ⟨frames₁, hstep, hcells₁, hfresh₁⟩ := step_initial task body
  have halone : Alone body { task.initial body with
      main := .called, frames := frames₁, stack := [.running 0] } := by
    refine ⟨rfl, by rw [hcells₁, update_self], fun a ha => ?_, rfl⟩
    show frames₁.cells a = none
    rw [hcells₁, update_of_ne ha]
    exact (task.initial body).frames.unused a (Nat.one_le_iff_ne_zero.mpr ha)
  obtain ⟨t, hleads, hover, houtput, hcreated, hfinals⟩ := halone.drives body body
  have hend : task.step t = none := by
    simp [Version.step, hover.stack, State.stepMain, hover.main]
  have hall : (task.drive body).Leads (task.initial body) t :=
    Leads.trans (.single (l := ()) hstep) hleads
  have houtput : t.output = V0.drives body := houtput
  refine ⟨t, hall, fun s hs => hs.leads_to_end (fun _ h => h) hall fun _ => hend, hover, hend,
    houtput, ?_, ?_, ?_, ?_⟩
  · rw [houtput]
    exact drives_sublist body
  · rw [houtput]
    exact drives_eq_calls_iff body
  · rw [hcreated]
    show frames₁.fresh + _ = _
    rw [hfresh₁]
  · exact hfinals.trans (Nat.zero_add _)

/-- The four coroutines of `example1.cpp`: two of them never say that they are done. -/
example :
    drives (.step "coro_0 enter" (.await (.step "coro_1 enter" (.await (.step "coro_2 enter"
      (.await (.step "completes enter" (.step "completes exit" .done))
        (.step "coro_2 exit" .done))) (.step "coro_1 exit" .done)))
      (.step "coro_0 exit" .done))) =
    ["coro_0 enter", "coro_1 enter", "coro_2 enter", "completes enter", "completes exit",
      "coro_0 exit"] := rfl

end Coroutines.Composition.V0
