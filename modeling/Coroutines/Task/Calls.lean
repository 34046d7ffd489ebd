import Coroutines.Lib.Heap
import Coroutines.Task.Basic
import Mathlib.Data.List.Forall2
import Mathlib.Data.List.Perm.Basic
import Mathlib.Data.List.Range

/-!
# Tasks as function calls

Tasks that wait for nothing but one another, with the values they return and the exceptions
they throw. The call that makes a task runs its body to the final suspend. The result stays in
the promise until the task is awaited, which may be never, once or many times, and the frame
until the body that made the task is left. The bodies as ordinary functions, whose results are
kept in the same way, are what this is compared with.
-/

namespace Coroutines.Task.Calls

open Transition System Function

variable {V E α : Type}

/-! ## Bodies -/

inductive Body (V E α : Type)
  | coReturn (v : V)
  | throws (e : E)
  | step (x : α) (rest : Body V E α)
  /-- `auto t = child();` -/
  | create (child rest : Body V E α)
  /-- `co_await` of the `i`-th task made so, and how the body goes on with its value, or where
  its exception is caught. There may be no such task: one that was moved from, say. -/
  | await (i : ℕ) (next : Except E V → Body V E α)

/-- The body as a function that calls its children, with what they returned or threw so far.
To await a task that is not there throws "broken promise". -/
def Body.call (broken : E) : Body V E α → List (Except E V) → List α × Except E V
  | .coReturn v, _ => ([], .ok v)
  | .throws e, _ => ([], .error e)
  | .step x rest, results =>
      let r := rest.call broken results
      (x :: r.1, r.2)
  | .create child rest, results =>
      let c := child.call broken []
      let r := rest.call broken (results ++ [c.2])
      (c.1 ++ r.1, r.2)
  | .await i next, results => (next (results[i]?.getD (.error broken))).call broken results

/-- What a coroutine has before it. -/
inductive Code (V E α : Type)
  | body (b : Body V E α)
  /-- The tasks of the body are destroyed, after a `co_return` or for an exception. -/
  | leaving (thrown : Option E)
  | finished

/-- A coroutine frame with its promise. -/
structure Frame (P : PromiseType V E) (α : Type) where
  code : Code V E α
  result : P.Result
  /-- `promise.state`. -/
  state : Bool
  /-- The tasks that the body has made, by the frames they own. -/
  tasks : List ℕ

variable (P : PromiseType V E)

structure State (α : Type) where
  frames : Heap (Frame P α)
  /-- The coroutines that run, the innermost call first. -/
  stack : List ℕ
  /-- History: the steps, and the frames that were destroyed. -/
  output : List α
  destroyed : List ℕ

variable {P}

/-- The promise of a new frame. -/
def Frame.create (P : PromiseType V E) (body : Body V E α) : Frame P α where
  code := .body body
  result := P.empty
  state := false
  tasks := []

/-- What is in the promise at the final suspend: `unhandled_exception` comes last. -/
def closing (P : PromiseType V E) (thrown : Option E) (result : P.Result) : P.Result :=
  match thrown with
  | some e => P.unhandledException e result
  | none => result

/-- `co_await` of a task: `await_ready` holds of one that has finished, and `await_resume`
returns or throws. One that has not would be resumed. -/
def State.awaitResume (broken : E) (s : State P α) : Option ℕ → Option (Except E V)
  | none => some (.error broken)
  | some a => do
      let g ← s.frames.cells a
      match g.code, P.result g.result with
      | .finished, .value v => some (.ok v)
      | .finished, .exception e => some (.error e)
      | _, _ => none

/-- The coroutine goes on. -/
def State.modify (s : State P α) (h : ℕ) (f : Frame P α → Frame P α) : Option (State P α) := do
  let frames ← s.frames.modify h f
  some { s with frames := frames }

/-- `child()`: the frame is made, and `initial_suspend` does not suspend. -/
def State.callChild (s : State P α) (h : ℕ) (child rest : Body V E α) : Option (State P α) := do
  let (c, frames) := s.frames.alloc (.create P child)
  let frames ← frames.modify h fun f => { f with code := .body rest }
  some { s with frames := frames, stack := c :: s.stack }

/-- `~task`: the frame of a task that has finished is destroyed. -/
def State.destroyTask (s : State P α) (h a : ℕ) : Option (State P α) := do
  let g ← s.frames.cells a
  match g.code with
  | .finished =>
      let frames ← (s.frames.free a).modify h fun f => { f with tasks := f.tasks.dropLast }
      some { s with frames := frames, destroyed := s.destroyed ++ [a] }
  | _ => none

/-- `final_awaitable::await_suspend`: there is no continuation, as nothing awaits a task that
runs. -/
def State.finalSuspend (s : State P α) (h : ℕ) (state : Bool) (thrown : Option E) :
    Option (State P α) :=
  if state then none
  else s.modify h fun f => { f with
    code := .finished
    result := closing P thrown f.result
    state := true }

/-- The call of the coroutine returns the task. -/
def State.returnTask (s : State P α) (h : ℕ) : List ℕ → Option (State P α)
  | [] => some { s with stack := [] }
  | p :: stack =>
      { s with stack := p :: stack }.modify p fun f => { f with tasks := f.tasks ++ [h] }

/-- What the coroutine that runs does next. -/
def State.stepTop (broken : E) (s : State P α) (h : ℕ) (stack : List ℕ) :
    Option (State P α) := do
  let f ← s.frames.cells h
  match f.code with
  | .body (.coReturn v) =>
      s.modify h fun f => { f with code := .leaving none, result := P.returned v f.result }
  | .body (.throws e) => s.modify h fun f => { f with code := .leaving (some e) }
  | .body (.step x rest) =>
      State.modify { s with output := s.output ++ [x] } h fun f => { f with code := .body rest }
  | .body (.create child rest) => s.callChild h child rest
  | .body (.await i next) => do
      let o ← s.awaitResume broken f.tasks[i]?
      s.modify h fun f => { f with code := .body (next o) }
  | .leaving thrown =>
      match f.tasks.getLast? with
      | some a => s.destroyTask h a
      | none => s.finalSuspend h f.state thrown
  | .finished => s.returnTask h stack

def State.step (broken : E) (s : State P α) : Option (State P α) :=
  match s.stack with
  | [] => none
  | h :: stack => s.stepTop broken h stack

/-- `auto t = body();` -/
def initial (P : PromiseType V E) (body : Body V E α) : State P α where
  frames := (Heap.empty.alloc (.create P body)).2
  stack := [0]
  output := []
  destroyed := []

def drive (P : PromiseType V E) (broken : E) (body : Body V E α) : System (State P α) Unit where
  Init s := s = initial P body
  step s _ := s.step broken

/-! ## One step of a coroutine -/

section
variable {s : State P α} {h : ℕ} {stack tasks : List ℕ} {result : P.Result}

theorem modify_spec {f : Frame P α} (g : Frame P α → Frame P α)
    (hf : s.frames.cells h = some f) :
    ∃ frames, s.modify h g = some { s with frames := frames } ∧
      frames.cells = update s.frames.cells h (some (g f)) ∧ frames.fresh = s.frames.fresh := by
  obtain ⟨frames, hmod, hcells, hfresh⟩ := Heap.modify_eq g hf
  refine ⟨frames, ?_, hcells, hfresh⟩
  rw [State.modify, hmod]
  rfl

variable (broken : E)

theorem step_running (hstack : s.stack = h :: stack) :
    s.step broken = s.stepTop broken h stack := by
  rw [State.step, hstack]

theorem step_coReturn {v : V} (hstack : s.stack = h :: stack)
    (hf : s.frames.cells h = some ⟨.body (.coReturn v), result, false, tasks⟩) :
    ∃ frames, s.step broken = some { s with frames := frames } ∧
      frames.cells = update s.frames.cells h
        (some ⟨.leaving none, P.returned v result, false, tasks⟩) ∧
      frames.fresh = s.frames.fresh := by
  obtain ⟨frames, hmod, hcells, hfresh⟩ := modify_spec
    (fun f => { f with code := .leaving none, result := P.returned v f.result }) hf
  refine ⟨frames, ?_, hcells, hfresh⟩
  rw [step_running broken hstack, State.stepTop, hf]
  exact hmod

theorem step_throws {e : E} (hstack : s.stack = h :: stack)
    (hf : s.frames.cells h = some ⟨.body (.throws e), result, false, tasks⟩) :
    ∃ frames, s.step broken = some { s with frames := frames } ∧
      frames.cells = update s.frames.cells h (some ⟨.leaving (some e), result, false, tasks⟩) ∧
      frames.fresh = s.frames.fresh := by
  obtain ⟨frames, hmod, hcells, hfresh⟩ :=
    modify_spec (fun f => { f with code := .leaving (some e) }) hf
  refine ⟨frames, ?_, hcells, hfresh⟩
  rw [step_running broken hstack, State.stepTop, hf]
  exact hmod

theorem step_visible {x : α} {rest : Body V E α} (hstack : s.stack = h :: stack)
    (hf : s.frames.cells h = some ⟨.body (.step x rest), result, false, tasks⟩) :
    ∃ frames, s.step broken = some { s with frames := frames, output := s.output ++ [x] } ∧
      frames.cells = update s.frames.cells h (some ⟨.body rest, result, false, tasks⟩) ∧
      frames.fresh = s.frames.fresh := by
  obtain ⟨frames, hmod, hcells, hfresh⟩ := modify_spec
    (s := { s with output := s.output ++ [x] }) (fun f => { f with code := .body rest }) hf
  refine ⟨frames, ?_, hcells, hfresh⟩
  rw [step_running broken hstack, State.stepTop, hf]
  exact hmod

theorem step_await {i : ℕ} {next : Except E V → Body V E α} {o : Except E V}
    (hstack : s.stack = h :: stack)
    (hf : s.frames.cells h = some ⟨.body (.await i next), result, false, tasks⟩)
    (ho : s.awaitResume broken tasks[i]? = some o) :
    ∃ frames, s.step broken = some { s with frames := frames } ∧
      frames.cells = update s.frames.cells h (some ⟨.body (next o), result, false, tasks⟩) ∧
      frames.fresh = s.frames.fresh := by
  obtain ⟨frames, hmod, hcells, hfresh⟩ :=
    modify_spec (fun f => { f with code := .body (next o) }) hf
  refine ⟨frames, ?_, hcells, hfresh⟩
  rw [step_running broken hstack, State.stepTop, hf]
  show (s.awaitResume broken tasks[i]?).bind _ = _
  rw [ho]
  exact hmod

theorem step_create {child rest : Body V E α} (hstack : s.stack = h :: stack)
    (hf : s.frames.cells h = some ⟨.body (.create child rest), result, false, tasks⟩) :
    ∃ frames, s.step broken = some { s with
        frames := frames
        stack := s.frames.fresh :: h :: stack } ∧
      frames.cells = update (update s.frames.cells s.frames.fresh (some (.create P child))) h
        (some ⟨.body rest, result, false, tasks⟩) ∧
      frames.fresh = s.frames.fresh + 1 := by
  have hne : h ≠ s.frames.fresh := Nat.ne_of_lt (Heap.lt_fresh hf)
  have hf' : (s.frames.alloc (.create P child)).2.cells h =
      some ⟨.body (.create child rest), result, false, tasks⟩ := by
    show update s.frames.cells s.frames.fresh _ h = _
    rw [update_of_ne hne]
    exact hf
  obtain ⟨frames, hmod, hcells, hfresh⟩ :=
    Heap.modify_eq (fun f : Frame P α => { f with code := .body rest }) hf'
  refine ⟨frames, ?_, hcells, hfresh⟩
  rw [step_running broken hstack, State.stepTop, hf]
  show ((s.frames.alloc (.create P child)).2.modify h _).bind _ = _
  rw [hmod, ← hstack]
  rfl

theorem step_destroy {thrown : Option E} {a : ℕ} {g : Frame P α} (hstack : s.stack = h :: stack)
    (hf : s.frames.cells h = some ⟨.leaving thrown, result, false, tasks ++ [a]⟩)
    (hg : s.frames.cells a = some g) (hfinished : g.code = .finished) (hne : h ≠ a) :
    ∃ frames, s.step broken = some { s with
        frames := frames
        destroyed := s.destroyed ++ [a] } ∧
      frames.cells = update (update s.frames.cells a none) h
        (some ⟨.leaving thrown, result, false, tasks⟩) ∧
      frames.fresh = s.frames.fresh := by
  have hf' : (s.frames.free a).cells h =
      some ⟨.leaving thrown, result, false, tasks ++ [a]⟩ := by
    show update s.frames.cells a none h = _
    rw [update_of_ne hne]
    exact hf
  obtain ⟨frames, hmod, hcells, hfresh⟩ :=
    Heap.modify_eq (fun f : Frame P α => { f with tasks := f.tasks.dropLast }) hf'
  refine ⟨frames, ?_, ?_, hfresh⟩
  · rw [step_running broken hstack, State.stepTop, hf]
    show (match (tasks ++ [a]).getLast? with
      | some a => s.destroyTask h a
      | none => s.finalSuspend h false thrown) = _
    rw [List.getLast?_concat]
    show s.destroyTask h a = _
    rw [State.destroyTask, hg, Option.bind_eq_bind, Option.bind_some, hfinished]
    show ((s.frames.free a).modify h _).bind _ = _
    rw [hmod]
    rfl
  · rw [hcells, List.dropLast_concat]
    rfl

theorem step_final {thrown : Option E} (hstack : s.stack = h :: stack)
    (hf : s.frames.cells h = some ⟨.leaving thrown, result, false, []⟩) :
    ∃ frames, s.step broken = some { s with frames := frames } ∧
      frames.cells = update s.frames.cells h
        (some ⟨.finished, closing P thrown result, true, []⟩) ∧
      frames.fresh = s.frames.fresh := by
  obtain ⟨frames, hmod, hcells, hfresh⟩ := modify_spec (fun f => { f with
    code := .finished, result := closing P thrown f.result, state := true }) hf
  refine ⟨frames, ?_, hcells, hfresh⟩
  rw [step_running broken hstack, State.stepTop, hf]
  exact hmod

theorem step_return {p : ℕ} {f g : Frame P α} (hstack : s.stack = h :: p :: stack)
    (hf : s.frames.cells h = some f) (hfinished : f.code = .finished)
    (hg : s.frames.cells p = some g) :
    ∃ frames, s.step broken = some { s with frames := frames, stack := p :: stack } ∧
      frames.cells = update s.frames.cells p (some { g with tasks := g.tasks ++ [h] }) ∧
      frames.fresh = s.frames.fresh := by
  obtain ⟨frames, hmod, hcells, hfresh⟩ := modify_spec (s := { s with stack := p :: stack })
    (fun f => { f with tasks := f.tasks ++ [h] }) hg
  refine ⟨frames, ?_, hcells, hfresh⟩
  rw [step_running broken hstack, State.stepTop, hf, Option.bind_eq_bind, Option.bind_some,
    hfinished]
  exact hmod

theorem step_return_root {f : Frame P α} (hstack : s.stack = [h])
    (hf : s.frames.cells h = some f) (hfinished : f.code = .finished) :
    s.step broken = some { s with stack := [] } := by
  rw [step_running broken hstack, State.stepTop, hf, Option.bind_eq_bind, Option.bind_some,
    hfinished]
  rfl

end

/-! ## Leaving a body -/

/-- The task has run to its end. -/
def State.Ended (s : State P α) (a : ℕ) : Prop :=
  ∃ f, s.frames.cells a = some f ∧ f.code = .finished

/-- **The tasks of a body are destroyed**, the last one first, and the result is in place. -/
theorem leads_leaving (broken : E) (root : Body V E α) (tasks : List ℕ) :
    ∀ {s : State P α} {h : ℕ} {stack : List ℕ} {thrown : Option E} {result : P.Result},
      s.stack = h :: stack →
      s.frames.cells h = some ⟨.leaving thrown, result, false, tasks⟩ →
      tasks.Nodup → h ∉ tasks → (∀ a ∈ tasks, s.Ended a) →
      ∃ t, (drive P broken root).Leads s t ∧ t.stack = s.stack ∧ t.output = s.output ∧
        t.destroyed = s.destroyed ++ tasks.reverse ∧ t.frames.fresh = s.frames.fresh ∧
        t.frames.cells h = some ⟨.finished, closing P thrown result, true, []⟩ ∧
        (∀ a ≠ h, a ∉ tasks → t.frames.cells a = s.frames.cells a) ∧
        ∀ a ∈ tasks, t.frames.cells a = none := by
  induction tasks using List.reverseRecOn with
  | nil =>
      intro s h stack thrown result hstack hf _ _ _
      obtain ⟨frames, hstep, hcells, hfresh⟩ := step_final broken hstack hf
      refine ⟨_, .single (l := ()) hstep, rfl, rfl, (List.append_nil _).symm, hfresh, ?_, ?_, ?_⟩
      · show frames.cells h = _
        rw [hcells, update_self]
      · intro a hne _
        show frames.cells a = _
        rw [hcells, update_of_ne hne]
      · exact fun a ha => (List.not_mem_nil ha).elim
  | append_singleton tasks a ih =>
      intro s h stack thrown result hstack hf hnodup hnot hended
      obtain ⟨htasks, -, hlast⟩ := List.nodup_append.mp hnodup
      have hanot : a ∉ tasks := fun ha => hlast a ha a (List.mem_singleton_self a) rfl
      have hha : h ≠ a := by
        rintro rfl
        exact hnot (List.mem_append_right _ (List.mem_singleton_self h))
      obtain ⟨g, hg, hfinished⟩ := hended a (List.mem_append_right _ (List.mem_singleton_self a))
      obtain ⟨frames, hstep, hcells, hfresh⟩ :=
        step_destroy broken hstack hf hg hfinished hha
      obtain ⟨s₁, hs₁⟩ : ∃ s₁, s₁ = { s with
        frames := frames, destroyed := s.destroyed ++ [a] } := ⟨_, rfl⟩
      have hcells₁ : ∀ b ≠ h, b ≠ a → s₁.frames.cells b = s.frames.cells b := by
        intro b hbh hba
        rw [hs₁]
        show frames.cells b = _
        rw [hcells, update_of_ne hbh, update_of_ne hba]
      have hleft : s₁.frames.cells h = some ⟨.leaving thrown, result, false, tasks⟩ := by
        rw [hs₁]
        show frames.cells h = _
        rw [hcells, update_self]
      have hended₁ : ∀ b ∈ tasks, s₁.Ended b := by
        intro b hb
        obtain ⟨f, hfb, hfin⟩ := hended b (List.mem_append_left _ hb)
        refine ⟨f, ?_, hfin⟩
        rw [hcells₁ b ?_ ?_, hfb]
        · rintro rfl
          exact hnot (List.mem_append_left _ hb)
        · rintro rfl
          exact hanot hb
      obtain ⟨t, hleads, hstack', hout, hdestroyed, hfresh', hframe, hothers, hfreed⟩ :=
        ih (s := s₁) (by rw [hs₁]; exact hstack) hleft htasks
          (fun hh => hnot (List.mem_append_left _ hh)) hended₁
      have hgone : t.frames.cells a = none := by
        rw [hothers a hha.symm hanot, hs₁]
        show frames.cells a = none
        rw [hcells, update_of_ne hha.symm, update_self]
      refine ⟨t, Leads.trans (.single (l := ()) (hstep.trans (congrArg some hs₁.symm))) hleads,
        ?_, ?_, ?_, ?_, hframe, ?_, ?_⟩
      · rw [hstack', hs₁]
      · rw [hout, hs₁]
      · rw [hdestroyed, hs₁, List.reverse_append, List.append_assoc]
        rfl
      · rw [hfresh', hs₁]
        exact hfresh
      · intro b hbh hb
        have hbt : b ∉ tasks := fun hmem => hb (List.mem_append_left _ hmem)
        have hba : b ≠ a := fun heq => hb (heq ▸ List.mem_append_right _ List.mem_cons_self)
        rw [hothers b hbh hbt, hcells₁ b hbh hba]
      · intro b hb
        rcases List.mem_append.mp hb with hb | hb
        · exact hfreed b hb
        · rw [List.mem_singleton.mp hb]
          exact hgone

/-! ## Running a body -/

/-- Between the two states the coroutine `h` has made the steps `out`. Of the coroutines created
on the way, `gone` are destroyed and `made` are its tasks. -/
structure Ran (h : ℕ) (s t : State P α) (out : List α) (gone made : List ℕ) (n : ℕ) : Prop where
  stack : t.stack = s.stack
  output : t.output = s.output ++ out
  destroyed : t.destroyed = s.destroyed ++ gone
  others : ∀ a < s.frames.fresh, a ≠ h → t.frames.cells a = s.frames.cells a
  fresh : t.frames.fresh = s.frames.fresh + n
  created : (gone ++ made).Perm (List.range' s.frames.fresh n)
  freed : ∀ a ∈ gone, t.frames.cells a = none

section
variable {s t u : State P α} {h : ℕ} {out out' : List α} {gone gone' made made' : List ℕ}
  {n n' : ℕ}

theorem Ran.created_lt (hst : Ran h s t out gone made n) {a : ℕ} (ha : a ∈ gone ++ made) :
    s.frames.fresh ≤ a ∧ a < t.frames.fresh := by
  rw [hst.fresh]
  exact List.mem_range'_1.mp (hst.created.mem_iff.mp ha)

theorem Ran.trans (hlt : h < s.frames.fresh) (hst : Ran h s t out gone made n)
    (htu : Ran h t u out' gone' made' n') :
    Ran h s u (out ++ out') (gone ++ gone') (made ++ made') (n + n') := by
  constructor
  case stack => exact htu.stack.trans hst.stack
  case output => rw [htu.output, hst.output, List.append_assoc]
  case destroyed => rw [htu.destroyed, hst.destroyed, List.append_assoc]
  case others =>
    intro a ha hne
    rw [htu.others a (by rw [hst.fresh]; exact Nat.lt_add_right n ha) hne, hst.others a ha hne]
  case fresh => rw [htu.fresh, hst.fresh, Nat.add_assoc]
  case created =>
    have hrest := htu.created
    rw [hst.fresh] at hrest
    rw [← List.range'_append_1]
    refine List.Perm.trans ?_ (hst.created.append hrest)
    rw [List.append_assoc, List.append_assoc]
    apply List.Perm.append_left gone
    rw [← List.append_assoc, ← List.append_assoc]
    exact List.Perm.append_right made' List.perm_append_comm
  case freed =>
    intro a ha
    rcases List.mem_append.mp ha with ha | ha
    · obtain ⟨hle, hfresh⟩ := hst.created_lt (List.mem_append_left _ ha)
      rw [htu.others a hfresh (Nat.ne_of_gt (Nat.lt_of_lt_of_le hlt hle))]
      exact hst.freed a ha
    · exact htu.freed a ha

/-- A step in which no coroutine is created or destroyed. -/
theorem Ran.of_update {f : Option (Frame P α)} (hstack : t.stack = s.stack)
    (hout : t.output = s.output ++ out) (hdestroyed : t.destroyed = s.destroyed)
    (hcells : t.frames.cells = update s.frames.cells h f)
    (hfresh : t.frames.fresh = s.frames.fresh) : Ran h s t out [] [] 0 where
  stack := hstack
  output := hout
  destroyed := by rw [hdestroyed, List.append_nil]
  others a _ hne := by rw [hcells, update_of_ne hne]
  fresh := hfresh
  created := List.Perm.nil
  freed _ ha := (List.not_mem_nil ha).elim

end

/-- What the tasks of a body have come to. -/
def Holds (s : State P α) (tasks : List ℕ) (results : List (Except E V)) : Prop :=
  List.Forall₂ (fun a o => ∃ f, s.frames.cells a = some f ∧ f.code = .finished ∧
    P.result f.result = .ofBody o) tasks results

/-- The coroutine `h` leaves the body with an outcome. -/
structure Leaves (h : ℕ) (t : State P α) (tasks : List ℕ) (outcome : Except E V) : Prop where
  frame : ∃ thrown result, t.frames.cells h = some ⟨.leaving thrown, result, false, tasks⟩ ∧
    P.result (closing P thrown result) = .ofBody outcome
  ended : ∀ a ∈ tasks, t.Ended a

/-- **The body does what the function does**, whatever calls are around it. -/
def Completes (P : PromiseType V E) (broken : E) (root body : Body V E α) : Prop :=
  ∀ {s : State P α} {h : ℕ} {stack tasks : List ℕ} {results : List (Except E V)},
    s.stack = h :: stack →
    s.frames.cells h = some ⟨.body body, P.empty, false, tasks⟩ → Holds s tasks results →
    ∃ t gone made n, (drive P broken root).Leads s t ∧
      Ran h s t (body.call broken results).1 gone made n ∧
      Leaves h t (tasks ++ made) (body.call broken results).2

section
variable {broken : E} {root : Body V E α} {s t : State P α} {h : ℕ} {stack tasks : List ℕ}
  {results : List (Except E V)}

theorem Holds.ended (hs : Holds s tasks results) : ∀ a ∈ tasks, s.Ended a := by
  induction hs with
  | nil => exact fun a ha => (List.not_mem_nil ha).elim
  | cons hab _ ih =>
      intro b hb
      obtain ⟨f, hf, hfinished, -⟩ := hab
      rcases List.mem_cons.mp hb with rfl | hb
      · exact ⟨f, hf, hfinished⟩
      · exact ih b hb

theorem Holds.congr (hs : Holds s tasks results)
    (h : ∀ a ∈ tasks, t.frames.cells a = s.frames.cells a) : Holds t tasks results := by
  induction hs with
  | nil => exact .nil
  | cons hab _ ih =>
      refine .cons ?_ (ih fun b hb => h b (List.mem_cons_of_mem _ hb))
      rw [h _ List.mem_cons_self]
      exact hab

/-- To await a task gives what the function that it stands for has returned or thrown. -/
theorem Holds.awaitResume (hs : Holds s tasks results) (broken : E) (i : ℕ) :
    s.awaitResume broken tasks[i]? = some (results[i]?.getD (.error broken)) := by
  induction hs generalizing i with
  | nil => rfl
  | @cons a o tasks results hab _ ih =>
      cases i with
      | zero =>
          obtain ⟨f, hf, hfinished, hresult⟩ := hab
          simp only [List.getElem?_cons_zero, State.awaitResume, hf, Option.bind_eq_bind,
            Option.bind_some, Option.getD_some, hfinished, hresult]
          cases o with
          | ok v => rfl
          | error e => rfl
      | succ i => exact ih i

/-- A task that has finished is not the coroutine that runs. -/
theorem Holds.ne (hs : Holds s tasks results) {body : Body V E α} {result : P.Result}
    (hf : s.frames.cells h = some ⟨.body body, result, false, tasks⟩) :
    ∀ a ∈ tasks, a ≠ h ∧ a < s.frames.fresh := by
  intro a ha
  obtain ⟨f, hfa, hfinished⟩ := hs.ended a ha
  refine ⟨?_, Heap.lt_fresh hfa⟩
  rintro rfl
  rw [hf] at hfa
  cases hfa
  cases hfinished

/-- The tasks stay what they are while the coroutine that holds them runs. -/
theorem Holds.ran (hs : Holds s tasks results) {body : Body V E α} {result : P.Result}
    (hf : s.frames.cells h = some ⟨.body body, result, false, tasks⟩) {out : List α}
    {gone made : List ℕ} {n : ℕ} (hst : Ran h s t out gone made n) : Holds t tasks results := by
  apply hs.congr
  intro a ha
  obtain ⟨hne, hlt⟩ := hs.ne hf a ha
  exact hst.others a hlt hne

/-- **A call comes back**, with what the function returns or throws in the promise and every
coroutine created on the way destroyed. -/
theorem Completes.call {body : Body V E α} (hbody : Completes P broken root body) {c : ℕ}
    (hstack : s.stack = c :: stack) (hf : s.frames.cells c = some (.create P body)) :
    ∃ t gone n f, (drive P broken root).Leads s t ∧
      Ran c s t (body.call broken []).1 gone [] n ∧ t.frames.cells c = some f ∧
      f.code = .finished ∧ P.result f.result = .ofBody (body.call broken []).2 := by
  obtain ⟨t₁, gone, made, n, hleads₁, h₁, hleaves⟩ := hbody hstack hf .nil
  obtain ⟨⟨thrown, result, hframe, hresult⟩, hended⟩ := hleaves
  obtain ⟨-, hnodup, hdisjoint⟩ :=
    List.nodup_append.mp (h₁.created.nodup_iff.mpr List.nodup_range')
  have hlt : c < s.frames.fresh := Heap.lt_fresh hf
  have hmade : ∀ a ∈ made, s.frames.fresh ≤ a := fun a ha =>
    (h₁.created_lt (List.mem_append_right _ ha)).1
  have hcmade : c ∉ made := fun hmem => Nat.not_le_of_lt hlt (hmade c hmem)
  obtain ⟨t, hleads, hstack', hout, hdestroyed, hfresh, hfinal, hothers, hfreed⟩ :=
    leads_leaving broken root made (h₁.stack.trans hstack) hframe hnodup hcmade hended
  refine ⟨t, gone ++ made.reverse, n, _, hleads₁.trans hleads, ?_, hfinal, rfl, hresult⟩
  constructor
  case stack => exact hstack'.trans h₁.stack
  case output => exact hout.trans h₁.output
  case destroyed => rw [hdestroyed, h₁.destroyed, List.append_assoc]
  case others =>
    intro a ha hne
    have hamade : a ∉ made := fun hmem => Nat.not_le_of_lt ha (hmade a hmem)
    rw [hothers a hne hamade, h₁.others a ha hne]
  case fresh => exact hfresh.trans h₁.fresh
  case created =>
    rw [List.append_nil]
    exact (List.Perm.append_left gone (List.reverse_perm made)).trans h₁.created
  case freed =>
    intro a ha
    rcases List.mem_append.mp ha with ha | ha
    · have hle := (h₁.created_lt (List.mem_append_left _ ha)).1
      have hne : a ≠ c := Nat.ne_of_gt (Nat.lt_of_lt_of_le hlt hle)
      have hamade : a ∉ made := fun hmem => hdisjoint a ha a hmem rfl
      rw [hothers a hne hamade]
      exact h₁.freed a ha
    · exact hfreed a (List.mem_reverse.mp ha)

/-- **A call is nested in the body that makes it.** -/
theorem leads_create {child rest : Body V E α} (hchild : Completes P broken root child)
    (hstack : s.stack = h :: stack)
    (hf : s.frames.cells h = some ⟨.body (.create child rest), P.empty, false, tasks⟩)
    (hs : Holds s tasks results) :
    ∃ t c gone n, (drive P broken root).Leads s t ∧
      Ran h s t (child.call broken []).1 gone [c] n ∧
      t.frames.cells h = some ⟨.body rest, P.empty, false, tasks ++ [c]⟩ ∧
      Holds t (tasks ++ [c]) (results ++ [(child.call broken []).2]) := by
  obtain ⟨c, hc⟩ : ∃ c, c = s.frames.fresh := ⟨_, rfl⟩
  have hlt : h < c := hc ▸ Heap.lt_fresh hf
  have hne : h ≠ c := Nat.ne_of_lt hlt
  obtain ⟨frames₁, hstep₁, hcells₁, hfresh₁⟩ := step_create broken hstack hf
  rw [← hc] at hstep₁ hcells₁ hfresh₁
  obtain ⟨s₁, hs₁⟩ : ∃ s₁, s₁ = { s with frames := frames₁, stack := c :: h :: stack } :=
    ⟨_, rfl⟩
  rw [← hs₁] at hstep₁
  have hcells₁ : s₁.frames.cells = update (update s.frames.cells c (some (.create P child))) h
      (some ⟨.body rest, P.empty, false, tasks⟩) := by
    rw [hs₁]
    exact hcells₁
  have hfresh₁ : s₁.frames.fresh = c + 1 := by
    rw [hs₁]
    exact hfresh₁
  obtain ⟨s₂, gone, n, f, hleads₂, h₂, hcalled, hfinished, hresult⟩ :=
    hchild.call (s := s₁) (show s₁.stack = c :: h :: stack by rw [hs₁])
      (by rw [hcells₁, update_of_ne hne.symm, update_self])
  have hkept : ∀ a < s.frames.fresh, s₂.frames.cells a = s₁.frames.cells a := by
    intro a ha
    rw [← hc] at ha
    exact h₂.others a (by rw [hfresh₁]; exact Nat.lt_succ_of_lt ha) (Nat.ne_of_lt ha)
  have hcaller : s₂.frames.cells h = some ⟨.body rest, P.empty, false, tasks⟩ := by
    rw [hkept h (hc ▸ hlt), hcells₁, update_self]
  have hstack₂ : s₂.stack = c :: h :: stack := by rw [h₂.stack, hs₁]
  obtain ⟨frames₃, hstep₃, hcells₃, hfresh₃⟩ :=
    step_return broken hstack₂ hcalled hfinished hcaller
  obtain ⟨t, ht⟩ : ∃ t, t = { s₂ with frames := frames₃, stack := h :: stack } := ⟨_, rfl⟩
  rw [← ht] at hstep₃
  have hcells₃ : t.frames.cells = update s₂.frames.cells h
      (some ⟨.body rest, P.empty, false, tasks ++ [c]⟩) := by
    rw [ht]
    exact hcells₃
  have hothers : ∀ a < s.frames.fresh, a ≠ h → t.frames.cells a = s.frames.cells a := by
    intro a ha hah
    rw [hcells₃, update_of_ne hah, hkept a ha, hcells₁, update_of_ne hah,
      update_of_ne (Nat.ne_of_lt (hc ▸ ha))]
  refine ⟨t, c, gone, 1 + n, ?_, ?_, ?_, ?_⟩
  · exact Leads.trans (.single (l := ()) hstep₁) (hleads₂.trans (.single (l := ()) hstep₃))
  · constructor
    case stack => rw [ht, hstack]
    case output =>
      rw [ht]
      show s₂.output = _
      rw [h₂.output, hs₁]
    case destroyed =>
      rw [ht]
      show s₂.destroyed = _
      rw [h₂.destroyed, hs₁]
    case others => exact hothers
    case fresh =>
      rw [ht]
      show frames₃.fresh = _
      rw [hfresh₃, h₂.fresh, hfresh₁, hc, Nat.add_assoc]
    case created =>
      have hcreated := h₂.created
      rw [List.append_nil, hfresh₁] at hcreated
      rw [← hc, ← List.range'_append_1]
      exact List.perm_append_comm.trans (hcreated.append_left [c])
    case freed =>
      intro a ha
      have hle := (h₂.created_lt (List.mem_append_left _ ha)).1
      have hah : a ≠ h := by
        rintro rfl
        rw [hfresh₁] at hle
        exact Nat.not_le_of_lt (Nat.lt_succ_of_lt hlt) hle
      rw [hcells₃, update_of_ne hah]
      exact h₂.freed a ha
  · rw [hcells₃, update_self]
  · refine List.rel_append (hs.congr fun a ha => ?_) (.cons ⟨f, ?_, hfinished, hresult⟩ .nil)
    · obtain ⟨hah, hlta⟩ := hs.ne hf a ha
      exact hothers a hlta hah
    · rw [hcells₃, update_of_ne hne.symm]
      exact hcalled

end

/-- **Every body does what its function does**, by induction on the body. -/
theorem completes (P : PromiseType V E) (broken : E) (root body : Body V E α) :
    Completes P broken root body := by
  induction body with
  | coReturn v =>
      intro s h stack tasks results hstack hf hs
      obtain ⟨frames, hstep, hcells, hfresh⟩ := step_coReturn broken hstack hf
      have hran : Ran h s { s with frames := frames } [] [] [] 0 :=
        .of_update rfl (List.append_nil _).symm rfl hcells hfresh
      refine ⟨_, [], [], 0, .single (l := ()) hstep, hran,
        ⟨none, P.returned v P.empty, ?_, P.result_returned v⟩, ?_⟩
      · rw [List.append_nil]
        exact (congrFun hcells h).trans (update_self ..)
      · rw [List.append_nil]
        exact (hs.ran hf hran).ended
  | throws e =>
      intro s h stack tasks results hstack hf hs
      obtain ⟨frames, hstep, hcells, hfresh⟩ := step_throws broken hstack hf
      have hran : Ran h s { s with frames := frames } [] [] [] 0 :=
        .of_update rfl (List.append_nil _).symm rfl hcells hfresh
      refine ⟨_, [], [], 0, .single (l := ()) hstep, hran,
        ⟨some e, P.empty, ?_, P.result_unhandledException e⟩, ?_⟩
      · rw [List.append_nil]
        exact (congrFun hcells h).trans (update_self ..)
      · rw [List.append_nil]
        exact (hs.ran hf hran).ended
  | step x rest ih =>
      intro s h stack tasks results hstack hf hs
      obtain ⟨frames, hstep, hcells, hfresh⟩ := step_visible broken hstack hf
      have hran : Ran h s { s with frames := frames, output := s.output ++ [x] } [x] [] [] 0 :=
        .of_update rfl rfl rfl hcells hfresh
      obtain ⟨t, gone, made, n, hleads, hrest, hleaves⟩ := ih (hran.stack.trans hstack)
        ((congrFun hcells h).trans (update_self ..)) (hs.ran hf hran)
      exact ⟨t, gone, made, 0 + n, Leads.trans (.single (l := ()) hstep) hleads,
        hran.trans (Heap.lt_fresh hf) hrest, hleaves⟩
  | create child rest ihchild ihrest =>
      intro s h stack tasks results hstack hf hs
      obtain ⟨s₁, c, gone, n, hleads, hran, hframe, hholds⟩ :=
        leads_create ihchild hstack hf hs
      obtain ⟨t, gone', made, n', hleads', hrest, hleaves⟩ :=
        ihrest (hran.stack.trans hstack) hframe hholds
      refine ⟨t, _, _, _, hleads.trans hleads', hran.trans (Heap.lt_fresh hf) hrest, ?_⟩
      rw [← List.append_assoc]
      exact hleaves
  | await i next ih =>
      intro s h stack tasks results hstack hf hs
      obtain ⟨frames, hstep, hcells, hfresh⟩ :=
        step_await broken hstack hf (hs.awaitResume broken i)
      have hran : Ran h s { s with frames := frames } [] [] [] 0 :=
        .of_update rfl (List.append_nil _).symm rfl hcells hfresh
      obtain ⟨t, gone, made, n, hleads, hrest, hleaves⟩ := ih _ (hran.stack.trans hstack)
        ((congrFun hcells h).trans (update_self ..)) (hs.ran hf hran)
      exact ⟨t, gone, made, 0 + n, Leads.trans (.single (l := ()) hstep) hleads,
        hran.trans (Heap.lt_fresh hf) hrest, hleaves⟩

/-! ## The whole program -/

theorem step_returned {broken : E} {s : State P α} (hstack : s.stack = []) :
    s.step broken = none := by
  rw [State.step, hstack]

/-- **Tasks are function calls**, for every body: every run comes to the one end where the call
has returned, with the steps in the order of the calls, what the function returns or throws in
the promise of the root, and every other frame destroyed once. -/
theorem drive_eq_call (P : PromiseType V E) (broken : E) (body : Body V E α) :
    ∃ t, (drive P broken body).Leads (initial P body) t ∧
      (∀ s, (drive P broken body).Reachable s → (drive P broken body).Leads s t) ∧
      t.stack = [] ∧ t.step broken = none ∧ t.output = (body.call broken []).1 ∧
      t.awaitResume broken (some 0) = some (body.call broken []).2 ∧
      (∀ a ≠ 0, t.frames.cells a = none) ∧
      t.destroyed.Perm (List.range' 1 (t.frames.fresh - 1)) := by
  have hcompletes : Completes P broken body body := completes P broken body body
  obtain ⟨s, gone, n, f, hleads, hran, hframe, hfinished, hresult⟩ :=
    hcompletes.call (show (initial P body).stack = [0] from rfl) rfl
  have hstep : s.step broken = some { s with stack := [] } :=
    step_return_root broken (hran.stack.trans rfl) hframe hfinished
  obtain ⟨t, ht⟩ : ∃ t, t = { s with stack := [] } := ⟨_, rfl⟩
  rw [← ht] at hstep
  have hend : t.step broken = none := by
    rw [ht]
    exact step_returned rfl
  have htotal : (drive P broken body).Leads (initial P body) t :=
    hleads.trans (.single (l := ()) hstep)
  have hcreated : gone.Perm (List.range' 1 n) := by
    have hcreated := hran.created
    rw [List.append_nil] at hcreated
    exact hcreated
  have hfresh : s.frames.fresh = 1 + n := hran.fresh
  refine ⟨t, htotal, fun s hs => hs.leads_to_end (fun _ h => h) htotal fun _ => hend, ?_⟩
  rw [ht] at hend ⊢
  refine ⟨rfl, hend, hran.output, ?_, fun a ha => ?_, ?_⟩
  · show (s.frames.cells 0).bind _ = _
    rw [hframe, Option.bind_some, hfinished, hresult]
    cases (body.call broken []).2 with
    | ok v => rfl
    | error e => rfl
  · by_cases hlt : a < s.frames.fresh
    · apply hran.freed
      rw [hcreated.mem_iff, List.mem_range'_1, ← hfresh]
      exact ⟨Nat.one_le_iff_ne_zero.mpr ha, hlt⟩
    · exact s.frames.unused a (Nat.le_of_not_lt hlt)
  · show s.destroyed.Perm (List.range' 1 (s.frames.fresh - 1))
    have hdestroyed : s.destroyed = gone := hran.destroyed
    rw [hdestroyed, hfresh, Nat.add_sub_cancel_left]
    exact hcreated

/-! ## What an early start changes -/

section
variable {results : List (List α × Except E V)}

/-- The steps of the tasks that have not started. -/
def pending (results : List (List α × Except E V)) : List α := (results.map Prod.fst).flatten

end

end Coroutines.Task.Calls
