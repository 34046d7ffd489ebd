import Coroutines.RecyclingAllocator.Uniform
import Coroutines.Throttler.Census

/-!
# The frames of throttled coroutines

The promise of a lookup coroutine takes its frame from the recycling allocator, and gives it back
when the coroutine completes: `promise_type::operator new` and `operator delete` of
`applications/map/map.hpp`, and of `root_task` and `throttler` of `applications/binary-search`.
A coroutine is created before `spawn` looks at the limit, so there may be one frame more than
coroutines in flight, and not more.

Here the throttler and the allocator run together. A coroutine may write to its frame whatever it
likes.
-/

namespace Coroutines.Throttler.Frames

open Transition System RecyclingAllocator
open Census (completed)

variable {τ ρ ω : Type}

/-! ## The model -/

/-- The block that `operator new` got, if the allocation did not fail. -/
def block : Allocated → Option ℕ
  | .recycled mem => some mem
  | .fresh ptr => some ptr
  | .nullptr => none
  | .badAlloc => none

/-- `promise_type::operator new`, with the answer of `malloc`. -/
def operatorNew (kind : Kind) (frameSize : RecyclingAllocator.Size)
    (memory : RecyclingAllocator.State) (malloc : Option ℕ) :
    Option (ℕ × RecyclingAllocator.State) := do
  let ptr ← block (alloc kind memory.allocator memory.header frameSize malloc).1
  let memory ← RecyclingAllocator.step kind memory (.alloc frameSize malloc)
  some (ptr, memory)

structure State (τ ω : Type) where
  census : Census.State τ ω
  memory : RecyclingAllocator.State
  /-- The block of each frame, by handle. -/
  blocks : List ℕ

inductive Act
  | run (malloc : Option ℕ)
  | write (handle : ℕ) (bytes : Header)     -- a coroutine writes to its frame
deriving DecidableEq

/-- A step of the throttler. -/
def runStep (P : Program τ ρ ω) (kind : Kind) (frameSize : RecyclingAllocator.Size)
    (s : State τ ω) (malloc : Option ℕ) : Option (State τ ω) :=
  match s.census.place with
  | .spawning (_ :: _) => do
      let (ptr, memory) ← operatorNew kind frameSize s.memory malloc
      let census ← Census.step P s.census
      some { census := census, memory := memory, blocks := s.blocks ++ [ptr] }
  | .resuming handle _ => do
      let census ← Census.step P s.census
      match census.exec.frames[handle]? with
      | some none => do
          -- the coroutine has completed: `promise_type::operator delete`
          let ptr ← s.blocks[handle]?
          let memory ← RecyclingAllocator.step kind s.memory (.free ptr frameSize)
          some { s with census := census, memory := memory }
      | _ => some { s with census := census }
  | _ => do
      let census ← Census.step P s.census
      some { s with census := census }

def step (P : Program τ ρ ω) (kind : Kind) (frameSize : RecyclingAllocator.Size)
    (s : State τ ω) : Act → Option (State τ ω)
  | .run malloc => runStep P kind frameSize s malloc
  | .write handle bytes =>
      match s.census.exec.frames[handle]? with
      | some (some _) => do
          let ptr ← s.blocks[handle]?
          let memory ← RecyclingAllocator.step kind s.memory (.write ptr bytes)
          some { s with memory := memory }
      | _ => none

/-- A lookup over an allocator that earlier lookups have used. -/
def initial (scheduler : StaticQueueScheduler) (maxConcurrentTasks : BitVec 64) (out : ω)
    (tasks : List τ) (memory : RecyclingAllocator.State) : State τ ω where
  census := Census.initial scheduler maxConcurrentTasks out tasks
  memory := memory
  blocks := []

def system (P : Program τ ρ ω) (kind : Kind) (frameSize : RecyclingAllocator.Size)
    (s₀ : State τ ω) : System (State τ ω) Act where
  Init s := s = s₀
  step := step P kind frameSize

/-! ## The blocks of the live frames -/

/-- The blocks of the frames that are not destroyed. -/
def liveBlocks : List (Option τ) → List ℕ → List ℕ
  | some _ :: frames, ptr :: blocks => ptr :: liveBlocks frames blocks
  | none :: frames, _ :: blocks => liveBlocks frames blocks
  | _, _ => []

theorem length_liveBlocks {frames : List (Option τ)} {blocks : List ℕ}
    (h : blocks.length = frames.length) :
    (liveBlocks frames blocks).length + completed frames = frames.length := by
  induction frames generalizing blocks with
  | nil => cases blocks <;> rfl
  | cons frame frames ih =>
      obtain ⟨ptr, blocks, rfl⟩ := List.exists_cons_of_length_eq_add_one h
      have hrest := ih (Nat.succ.inj h)
      cases frame with
      | none =>
          rw [completed, List.countP_cons] at *
          simp only [liveBlocks, Option.isNone_none, if_true, List.length_cons]
          omega
      | some f =>
          rw [completed, List.countP_cons] at *
          simp only [liveBlocks, Option.isNone_some, List.length_cons]
          simp only [Bool.false_eq_true, if_false, Nat.add_zero]
          omega

/-- A frame is created. -/
theorem liveBlocks_create {frames : List (Option τ)} {blocks : List ℕ}
    (h : blocks.length = frames.length) (frame : τ) (ptr : ℕ) :
    liveBlocks (frames ++ [some frame]) (blocks ++ [ptr]) = liveBlocks frames blocks ++ [ptr] := by
  induction frames generalizing blocks with
  | nil =>
      rw [List.length_eq_zero_iff.mp h]
      rfl
  | cons f frames ih =>
      obtain ⟨b, blocks, rfl⟩ := List.exists_cons_of_length_eq_add_one h
      cases f with
      | none => exact ih (Nat.succ.inj h)
      | some f => exact congrArg (b :: ·) (ih (Nat.succ.inj h))

/-- A frame changes. -/
theorem liveBlocks_set_some {frames : List (Option τ)} {blocks : List ℕ} {handle : ℕ} {frame : τ}
    (h : frames[handle]? = some (some frame)) (frame' : τ) :
    liveBlocks (frames.set handle (some frame')) blocks = liveBlocks frames blocks := by
  induction frames generalizing blocks handle with
  | nil => rfl
  | cons f frames ih =>
      cases handle with
      | zero =>
          obtain rfl := Option.some.inj h
          cases blocks <;> rfl
      | succ handle =>
          cases blocks with
          | nil => cases f <;> rfl
          | cons b blocks =>
              cases f with
              | none => exact ih h
              | some f => exact congrArg (b :: ·) (ih h)

/-- **A frame is destroyed**, and its block is no longer one of the live frames'. -/
theorem liveBlocks_set_none {frames : List (Option τ)} {blocks : List ℕ} {handle ptr : ℕ}
    {frame : τ} (h : frames[handle]? = some (some frame)) (hptr : blocks[handle]? = some ptr) :
    (liveBlocks frames blocks).Perm (ptr :: liveBlocks (frames.set handle none) blocks) := by
  induction frames generalizing blocks handle with
  | nil => cases h
  | cons f frames ih =>
      cases blocks with
      | nil => cases hptr
      | cons b blocks =>
          cases handle with
          | zero =>
              obtain rfl := Option.some.inj h
              obtain rfl := Option.some.inj hptr
              exact .refl _
          | succ handle =>
              cases f with
              | none => exact ih h hptr
              | some f => exact (List.Perm.cons b (ih h hptr)).trans (List.Perm.swap ptr b _)

/-! ## One step of the throttler -/

/-- What a hop does to the frames. -/
theorem hop_frames {P : Program τ ρ ω} {handle : ℕ} {s : Exec τ ω} {x : (ℕ × Exec τ ω) ⊕ Exec τ ω}
    (hx : hop P (handle, s) = some x) : ∃ frame, s.frames[handle]? = some (some frame) ∧
      Sum.elim (fun t => ∃ frame', t.2.frames = s.frames.set handle (some frame'))
        (fun t => t.frames = s.frames.set handle none) x := by
  obtain ⟨slot, hslot, hrest⟩ := Option.bind_eq_some_iff.mp hx
  obtain ⟨frame, rfl, hbody⟩ := Option.bind_eq_some_iff.mp hrest
  obtain ⟨y, -, hresult⟩ := Option.bind_eq_some_iff.mp hbody
  refine ⟨frame, hslot, ?_⟩
  rcases y with frame' | r
  · obtain ⟨t, hnext, heq⟩ := Option.bind_eq_some_iff.mp hresult
    obtain ⟨next, -, hret⟩ := Option.bind_eq_some_iff.mp hnext
    obtain rfl := Option.some.inj heq
    obtain rfl := Option.some.inj hret
    exact ⟨frame', rfl⟩
  · obtain rfl := Option.some.inj hresult
    rfl

/-- The frames that are created and not yet counted as spawned. -/
def parked : Census.Place τ → ℕ
  | .resuming _ (.spawn ..) => 1
  | .scheduling .. => 1
  | _ => 0

/-- What a step of the throttler does to the frames. -/
inductive Effect (s s' : Census.State τ ω) : Prop
  | created (frame : τ) (tasks : List τ) (place : s.place = .spawning (frame :: tasks))
      (frames : s'.exec.frames = s.exec.frames ++ [some frame])
  | changed (handle : ℕ) (caller : Census.Caller τ) (frame frame' : τ)
      (place : s.place = .resuming handle caller)
      (live : s.exec.frames[handle]? = some (some frame))
      (frames : s'.exec.frames = s.exec.frames.set handle (some frame'))
  | destroyed (handle : ℕ) (caller : Census.Caller τ) (frame : τ)
      (place : s.place = .resuming handle caller)
      (live : s.exec.frames[handle]? = some (some frame))
      (frames : s'.exec.frames = s.exec.frames.set handle none)
  | same (spawning : ∀ frame tasks, s.place ≠ .spawning (frame :: tasks))
      (resuming : ∀ handle caller, s.place ≠ .resuming handle caller)
      (frames : s'.exec.frames = s.exec.frames)

/-- The frames are those that were spawned, and the one that waits for room. -/
def Counted (s : Census.State τ ω) : Prop :=
  s.exec.frames.length = s.spawned + parked s.place

section
variable {P : Program τ ρ ω} {s s' : Census.State τ ω}

theorem spawnStep_effect {frame : τ} {tasks : List τ}
    (hplace : s.place = .spawning (frame :: tasks))
    (h : Census.spawnStep s frame tasks = some s') :
    Effect s s' ∧ (Counted s → Counted s') := by
  have hcreated : ∀ {t : Census.State τ ω}, t.exec.frames = s.exec.frames ++ [some frame] →
      t.spawned = s.spawned → parked t.place = 1 → Effect s t ∧ (Counted s → Counted t) := by
    intro t hframes hspawned hparked
    refine ⟨.created frame tasks hplace hframes, fun hcounted => ?_⟩
    rw [Counted, hplace] at hcounted
    rw [Counted, hframes, hspawned, hparked, List.length_append, hcounted]
    rfl
  by_cases hzero : s.exec.limit = 0
  · simp only [Census.spawnStep, if_pos hzero] at h
    obtain ⟨next, -, rfl⟩ := Option.map_eq_some_iff.mp h
    exact hcreated rfl rfl rfl
  · simp only [Census.spawnStep, if_neg hzero, Option.some.injEq] at h
    subst h
    exact hcreated rfl rfl rfl

theorem hopStep_effect {handle : ℕ} {caller : Census.Caller τ}
    (hplace : s.place = .resuming handle caller) (h : Census.hopStep P s handle caller = some s') :
    Effect s s' ∧ (Counted s → Counted s') := by
  obtain ⟨x, hx, rfl⟩ := Option.map_eq_some_iff.mp h
  obtain ⟨frame, hlive, hframes⟩ := hop_frames hx
  rcases x with ⟨next, exec⟩ | exec
  · obtain ⟨frame', hframes⟩ := hframes
    refine ⟨.changed handle caller frame frame' hplace hlive hframes, fun hcounted => ?_⟩
    rw [Counted, hplace] at hcounted
    show exec.frames.length = _
    rw [show exec.frames = _ from hframes, List.length_set]
    cases caller <;> exact hcounted
  · have hcounted' : Counted s → exec.frames.length = s.spawned + parked caller.back := by
      intro hcounted
      rw [Counted, hplace] at hcounted
      rw [show exec.frames = _ from hframes, List.length_set]
      cases caller <;> exact hcounted
    cases caller with
    | spawn parked tasks => exact ⟨.destroyed handle _ frame hplace hlive hframes, hcounted'⟩
    | run later => exact ⟨.destroyed handle _ frame hplace hlive hframes, hcounted'⟩

theorem runStep_effect {later : ℕ} (hplace : s.place = .running later) :
    Effect s (Census.runStep s later) ∧ (Counted s → Counted (Census.runStep s later)) := by
  have hspawning : ∀ frame tasks, s.place ≠ .spawning (frame :: tasks) := by simp [hplace]
  have hresuming : ∀ handle caller, s.place ≠ .resuming handle caller := by simp [hplace]
  have hsame : ∀ {t : Census.State τ ω}, t.exec.frames = s.exec.frames → t.spawned = s.spawned →
      parked t.place = 0 → Effect s t ∧ (Counted s → Counted t) := by
    intro t hframes hspawned hparked
    refine ⟨.same hspawning hresuming hframes, fun hcounted => ?_⟩
    rw [Counted, hplace] at hcounted
    rw [Counted, hframes, hspawned, hparked]
    exact hcounted
  unfold Census.runStep
  split
  · cases later <;> exact hsame rfl rfl rfl
  · exact hsame rfl rfl rfl

/-- **Every step** creates a frame, changes one, destroys one, or leaves the frames alone. -/
theorem census_effect (h : Census.step P s = some s') :
    Effect s s' ∧ (Counted s → Counted s') := by
  rcases hplace : s.place with tasks | ⟨handle, caller⟩ | ⟨handle, tasks⟩ | later | _
  · cases tasks with
    | nil =>
        simp only [Census.step, hplace, Option.some.injEq] at h
        subst h
        refine ⟨.same (by simp [hplace]) (by simp [hplace]) rfl, fun hcounted => ?_⟩
        rw [Counted, hplace] at hcounted
        exact hcounted
    | cons frame tasks =>
        simp only [Census.step, hplace] at h
        exact spawnStep_effect hplace h
  · simp only [Census.step, hplace] at h
    exact hopStep_effect hplace h
  · simp only [Census.step, hplace, Option.some.injEq] at h
    subst h
    refine ⟨.same (by simp [hplace]) (by simp [hplace]) rfl, fun hcounted => ?_⟩
    rw [Counted, hplace] at hcounted
    exact hcounted
  · simp only [Census.step, hplace, Option.some.injEq] at h
    subst h
    exact runStep_effect hplace
  · simp only [Census.step, hplace] at h
    cases h

end

/-! ## The invariant -/

structure Inv (n bound : ℕ) (frameSize : RecyclingAllocator.Size) (s : State τ ω) : Prop where
  census : Census.Inv n s.census
  counted : Counted s.census
  blocks : s.blocks.length = s.census.exec.frames.length
  held : s.memory.held.Perm
    ((liveBlocks s.census.exec.frames s.blocks).map fun ptr => (ptr, frameSize))
  memory : ∃ l, Uniform frameSize s.memory l ∧
    l.length + s.memory.held.length ≤ max bound (n + 1)

section
variable {P : Program τ ρ ω} {kind : Kind} {frameSize : RecyclingAllocator.Size} {n bound : ℕ}
  {s s' : State τ ω}

/-- **One frame more than the limit**, at most. -/
theorem Inv.live_le (h : Inv n bound frameSize s) :
    (liveBlocks s.census.exec.frames s.blocks).length ≤ n + parked s.census.place := by
  obtain ⟨depth, queue, hbooks⟩ := h.census.books
  have hlimit := hbooks.limit
  have hcount := hbooks.count
  have hcounted := h.counted
  have hlive := length_liveBlocks h.blocks
  rw [Counted] at hcounted
  omega

theorem Inv.length_held (h : Inv n bound frameSize s) :
    s.memory.held.length = (liveBlocks s.census.exec.frames s.blocks).length := by
  rw [h.held.length_eq, List.length_map]

/-- What `operator new` does to the memory. -/
theorem operatorNew_held {memory memory' : RecyclingAllocator.State} {malloc : Option ℕ} {ptr : ℕ}
    (h : operatorNew kind frameSize memory malloc = some (ptr, memory')) :
    RecyclingAllocator.step kind memory (.alloc frameSize malloc) = some memory' ∧
      memory'.held = (ptr, frameSize) :: memory.held := by
  obtain ⟨ptr', hblock, hrest⟩ := Option.bind_eq_some_iff.mp h
  obtain ⟨memory₁, hstep, hret⟩ := Option.bind_eq_some_iff.mp hrest
  obtain ⟨rfl, rfl⟩ := Prod.mk.inj (Option.some.inj hret)
  refine ⟨hstep, ?_⟩
  simp only [RecyclingAllocator.step] at hstep
  split at hstep
  · unfold allocStep at hstep
    split at hstep
    · rename_i mem a halloc
      rw [halloc] at hblock
      cases hblock
      cases hstep
      rfl
    · rename_i mem a halloc
      rw [halloc] at hblock
      cases hblock
      split at hstep
      · cases hstep
        rfl
      · cases hstep
    · rename_i other a hrecycled hfresh halloc
      rw [halloc] at hblock
      cases other with
      | recycled mem => exact absurd rfl (hrecycled mem)
      | fresh mem => exact absurd rfl (hfresh mem)
      | nullptr | badAlloc => cases hblock
  · cases hstep

/-- The memory is used within the bound where no more blocks are held than frames are live. -/
theorem memory_step {memory memory' : RecyclingAllocator.State} (act : RecyclingAllocator.Act)
    (h : ∃ l, Uniform frameSize memory l ∧ l.length + memory.held.length ≤ max bound (n + 1))
    (hok : OneSize frameSize memory act)
    (hstep : RecyclingAllocator.step kind memory act = some memory')
    (hheld : memory'.held.length ≤ n + 1) :
    ∃ l, Uniform frameSize memory' l ∧ l.length + memory'.held.length ≤ max bound (n + 1) := by
  obtain ⟨l, huniform, hbound⟩ := h
  obtain ⟨l', huniform', hlength⟩ := huniform.step hok hstep
  refine ⟨l', huniform', ?_⟩
  rw [hlength]
  exact max_le hbound (hheld.trans (le_max_right _ _))

/-- **A frame is created** in a block of its own. -/
theorem Inv.create (h : Inv n bound frameSize s) (hn : 1 ≤ n) {frame : τ} {tasks : List τ}
    (hplace : s.census.place = .spawning (frame :: tasks)) {malloc : Option ℕ} {ptr : ℕ}
    {memory : RecyclingAllocator.State} {census : Census.State τ ω}
    (hnew : operatorNew kind frameSize s.memory malloc = some (ptr, memory))
    (hcensus : Census.step P s.census = some census) :
    Inv n bound frameSize { census := census, memory := memory, blocks := s.blocks ++ [ptr] } := by
  obtain ⟨hstep, hheld⟩ := operatorNew_held hnew
  obtain ⟨heffect, hcounted⟩ := census_effect hcensus
  have hframes : census.exec.frames = s.census.exec.frames ++ [some frame] := by
    cases heffect with
    | created frame' tasks' hplace' hframes =>
        rw [hplace] at hplace'
        cases hplace'
        exact hframes
    | changed handle caller frame' frame'' hplace' =>
        rw [hplace] at hplace'
        cases hplace'
    | destroyed handle caller frame' hplace' =>
        rw [hplace] at hplace'
        cases hplace'
    | same hspawning => exact absurd hplace (hspawning frame tasks)
  have hlive := h.live_le
  rw [hplace] at hlive
  constructor
  case census => exact Census.step_inv hn h.census hcensus
  case counted => exact hcounted h.counted
  case blocks =>
    show (s.blocks ++ [ptr]).length = census.exec.frames.length
    rw [hframes, List.length_append, List.length_append, h.blocks]
    rfl
  case held =>
    show memory.held.Perm ((liveBlocks census.exec.frames (s.blocks ++ [ptr])).map _)
    rw [hheld, hframes, liveBlocks_create h.blocks, List.map_append, List.map_singleton]
    exact (h.held.cons _).trans (List.perm_append_singleton _ _).symm
  case memory =>
    apply memory_step (.alloc frameSize malloc) h.memory rfl hstep
    rw [hheld, List.length_cons, h.length_held]
    exact Nat.succ_le_succ hlive

/-- The block of a live frame is held. -/
theorem Inv.held_of_live (h : Inv n bound frameSize s) {handle : ℕ} {frame : τ}
    (hlive : s.census.exec.frames[handle]? = some (some frame)) :
    ∃ ptr, s.blocks[handle]? = some ptr ∧ (ptr, frameSize) ∈ s.memory.held := by
  have hlt := (List.getElem?_eq_some_iff.mp hlive).1
  rw [← h.blocks] at hlt
  have hptr := List.getElem?_eq_getElem hlt
  refine ⟨_, hptr, h.held.mem_iff.mpr ?_⟩
  refine List.mem_map.mpr ⟨_, ?_, rfl⟩
  exact (liveBlocks_set_none hlive hptr).mem_iff.mpr List.mem_cons_self

/-- The frames are what they were, but for what is written in them. -/
theorem Inv.keep (h : Inv n bound frameSize s) (hn : 1 ≤ n) {census : Census.State τ ω}
    (hcensus : Census.step P s.census = some census)
    (hblocks : liveBlocks census.exec.frames s.blocks = liveBlocks s.census.exec.frames s.blocks)
    (hlength : census.exec.frames.length = s.census.exec.frames.length) :
    Inv n bound frameSize { s with census := census } where
  census := Census.step_inv hn h.census hcensus
  counted := (census_effect hcensus).2 h.counted
  blocks := h.blocks.trans hlength.symm
  held := by
    show s.memory.held.Perm ((liveBlocks census.exec.frames s.blocks).map _)
    rw [hblocks]
    exact h.held
  memory := h.memory

/-- **A frame is destroyed**, and its block freed. -/
theorem Inv.destroy (h : Inv n bound frameSize s) (hn : 1 ≤ n) {handle ptr : ℕ} {frame : τ}
    (hlive : s.census.exec.frames[handle]? = some (some frame))
    (hptr : s.blocks[handle]? = some ptr) {census : Census.State τ ω}
    (hcensus : Census.step P s.census = some census)
    (hframes : census.exec.frames = s.census.exec.frames.set handle none)
    {memory : RecyclingAllocator.State}
    (hfree : RecyclingAllocator.step kind s.memory (.free ptr frameSize) = some memory) :
    Inv n bound frameSize { s with census := census, memory := memory } := by
  obtain ⟨ptr', hptr', hheld⟩ := h.held_of_live hlive
  obtain rfl : ptr = ptr' := Option.some.inj (hptr.symm.trans hptr')
  have hmemory : memory.held = s.memory.held.erase (ptr, frameSize) := by
    simp only [RecyclingAllocator.step, if_pos hheld, Option.some.injEq] at hfree
    rw [← hfree]
  have hperm := (liveBlocks_set_none hlive hptr).map fun ptr => (ptr, frameSize)
  have hheld' : memory.held.Perm
      ((liveBlocks (s.census.exec.frames.set handle none) s.blocks).map fun ptr =>
        (ptr, frameSize)) := by
    rw [hmemory]
    exact (List.perm_cons _).mp
      ((List.perm_cons_erase hheld).symm.trans (h.held.trans hperm))
  constructor
  case census => exact Census.step_inv hn h.census hcensus
  case counted => exact (census_effect hcensus).2 h.counted
  case blocks =>
    show s.blocks.length = census.exec.frames.length
    rw [hframes, List.length_set]
    exact h.blocks
  case held =>
    show memory.held.Perm ((liveBlocks census.exec.frames s.blocks).map _)
    rw [hframes]
    exact hheld'
  case memory =>
    apply memory_step (.free ptr frameSize) h.memory trivial hfree
    have hless := (List.perm_cons_erase hheld).length_eq
    have hlive := h.live_le
    have hparked : parked s.census.place ≤ 1 := by
      unfold parked
      split <;> omega
    rw [hmemory]
    rw [List.length_cons, h.length_held] at hless
    omega

/-- **Every step** of the throttler and the allocator keeps the books of both. -/
theorem runStep_inv (hn : 1 ≤ n) (h : Inv n bound frameSize s) {malloc : Option ℕ}
    (hs : runStep P kind frameSize s malloc = some s') : Inv n bound frameSize s' := by
  unfold runStep at hs
  split at hs
  · rename_i frame tasks hplace
    obtain ⟨⟨ptr, memory⟩, hnew, hrest⟩ := Option.bind_eq_some_iff.mp hs
    obtain ⟨census, hcensus, hret⟩ := Option.bind_eq_some_iff.mp hrest
    obtain rfl := Option.some.inj hret
    exact h.create hn hplace hnew hcensus
  · rename_i handle caller hplace
    obtain ⟨census, hcensus, hrest⟩ := Option.bind_eq_some_iff.mp hs
    have hother : ∀ handle' caller', s.census.place = .resuming handle' caller' →
        handle' = handle := by
      intro handle' caller' hplace'
      rw [hplace] at hplace'
      cases hplace'
      rfl
    cases (census_effect hcensus).1 with
    | created frame tasks hplace' =>
        rw [hplace] at hplace'
        cases hplace'
    | changed handle' caller' frame frame' hplace' hlive hframes =>
        obtain rfl := hother handle' caller' hplace'
        have hget : census.exec.frames[handle']? = some (some frame') := by
          rw [hframes, List.getElem?_set_self (List.getElem?_eq_some_iff.mp hlive).1]
        simp only [hget, Option.some.injEq] at hrest
        subst hrest
        refine h.keep hn hcensus ?_ ?_
        · rw [hframes, liveBlocks_set_some hlive]
        · rw [hframes, List.length_set]
    | destroyed handle' caller' frame hplace' hlive hframes =>
        obtain rfl := hother handle' caller' hplace'
        have hget : census.exec.frames[handle']? = some none := by
          rw [hframes, List.getElem?_set_self (List.getElem?_eq_some_iff.mp hlive).1]
        simp only [hget] at hrest
        obtain ⟨ptr, hptr, hrest⟩ := Option.bind_eq_some_iff.mp hrest
        obtain ⟨memory, hfree, hret⟩ := Option.bind_eq_some_iff.mp hrest
        obtain rfl := Option.some.inj hret
        exact h.destroy hn hlive hptr hcensus hframes hfree
    | same hspawning hresuming => exact absurd hplace (hresuming handle caller)
  · rename_i hspawning hresuming
    obtain ⟨census, hcensus, hret⟩ := Option.bind_eq_some_iff.mp hs
    obtain rfl := Option.some.inj hret
    cases (census_effect hcensus).1 with
    | created frame tasks hplace => exact absurd hplace (hspawning frame tasks)
    | changed handle caller frame frame' hplace => exact absurd hplace (hresuming handle caller)
    | destroyed handle caller frame hplace => exact absurd hplace (hresuming handle caller)
    | same _ _ hframes =>
        exact h.keep hn hcensus (by rw [hframes]) (by rw [hframes])

theorem step_inv (hn : 1 ≤ n) (h : Inv n bound frameSize s) {act : Act}
    (hs : step P kind frameSize s act = some s') : Inv n bound frameSize s' := by
  cases act with
  | run malloc => exact runStep_inv hn h hs
  | write handle bytes =>
      simp only [step] at hs
      split at hs
      · obtain ⟨ptr, -, hrest⟩ := Option.bind_eq_some_iff.mp hs
        obtain ⟨memory, hwrite, hret⟩ := Option.bind_eq_some_iff.mp hrest
        obtain rfl := Option.some.inj hret
        have hsame : memory.held = s.memory.held := by
          simp only [RecyclingAllocator.step] at hwrite
          split at hwrite
          · cases hwrite
            rfl
          · cases hwrite
        obtain ⟨l, huniform, hbound⟩ := h.memory
        obtain ⟨l', huniform', hlength⟩ := huniform.step
          (show OneSize frameSize s.memory (.write ptr bytes) from trivial) hwrite
        refine ⟨h.census, h.counted, h.blocks, hsame ▸ h.held, l', huniform', ?_⟩
        show l'.length + memory.held.length ≤ _
        rw [hlength, hsame]
        omega
      · cases hs

end

/-! ## Every point of a run -/

/-- `operator new` gets a block where `malloc` has one. -/
theorem operatorNew_defined (kind : Kind) {frameSize : RecyclingAllocator.Size}
    {memory : RecyclingAllocator.State} {l : List ℕ} (h : Uniform frameSize memory l)
    (hsize : headerSize ≤ frameSize) {ptr : ℕ} (hfresh : memory.obtained ptr = none) :
    ∃ x, operatorNew kind frameSize memory (some ptr) = some x := by
  obtain ⟨mem, memory', halloc, hstep, -⟩ := h.served kind hsize hfresh
  refine ⟨(mem, memory'), ?_⟩
  rcases halloc with halloc | halloc
  · simp only [operatorNew, halloc, block, hstep, Option.bind_eq_bind, Option.bind_some]
  · simp only [operatorNew, halloc, block, hstep, Option.bind_eq_bind, Option.bind_some]

/-- **The allocator does not stand in the way** of the throttler. -/
theorem Inv.progress {P : Program τ ρ ω} {kind : Kind} {frameSize : RecyclingAllocator.Size}
    {n bound : ℕ} {s : State τ ω} (h : Inv n bound frameSize s) (hsize : headerSize ≤ frameSize)
    {census : Census.State τ ω} (hcensus : Census.step P s.census = some census) {ptr : ℕ}
    (hfresh : s.memory.obtained ptr = none) :
    ∃ t, step P kind frameSize s (.run (some ptr)) = some t ∧ t.census = census := by
  cases (census_effect hcensus).1 with
  | created frame tasks hplace =>
      obtain ⟨l, huniform, -⟩ := h.memory
      obtain ⟨⟨ptr', memory⟩, hnew⟩ := operatorNew_defined kind huniform hsize hfresh
      refine ⟨{ census := census, memory := memory, blocks := s.blocks ++ [ptr'] }, ?_, rfl⟩
      simp only [step, runStep, hplace, hnew, hcensus, Option.bind_eq_bind, Option.bind_some]
  | changed handle caller frame frame' hplace hlive hframes =>
      have hget : census.exec.frames[handle]? = some (some frame') := by
        rw [hframes, List.getElem?_set_self (List.getElem?_eq_some_iff.mp hlive).1]
      refine ⟨{ s with census := census }, ?_, rfl⟩
      simp only [step, runStep, hplace, hcensus, Option.bind_eq_bind, Option.bind_some, hget]
  | destroyed handle caller frame hplace hlive hframes =>
      have hget : census.exec.frames[handle]? = some none := by
        rw [hframes, List.getElem?_set_self (List.getElem?_eq_some_iff.mp hlive).1]
      obtain ⟨ptr', hptr, hheld⟩ := h.held_of_live hlive
      obtain ⟨memory, hfree⟩ : ∃ memory,
          RecyclingAllocator.step kind s.memory (.free ptr' frameSize) = some memory := by
        simp only [RecyclingAllocator.step, if_pos hheld]
        exact ⟨_, rfl⟩
      refine ⟨{ s with census := census, memory := memory }, ?_, rfl⟩
      simp only [step, runStep, hplace, hcensus, Option.bind_eq_bind, Option.bind_some, hget, hptr,
        hfree]
  | same hspawning hresuming hframes =>
      refine ⟨{ s with census := census }, ?_, rfl⟩
      rcases hplace : s.census.place with tasks | ⟨handle, caller⟩ | ⟨handle, tasks⟩ | later | _
      · cases tasks with
        | nil => simp only [step, runStep, hplace, hcensus, Option.bind_eq_bind, Option.bind_some]
        | cons frame tasks => exact absurd hplace (hspawning frame tasks)
      · exact absurd hplace (hresuming handle caller)
      all_goals
        simp only [step, runStep, hplace, hcensus, Option.bind_eq_bind, Option.bind_some]

/-- **At most one block more than streams.** For every program of coroutines, both allocators,
every frame size from that of a header on, every list of tasks and every number of streams from
one on and below the depth of an empty scheduler, over an allocator that earlier lookups of the
same frame size may have used: at every point no two live frames share a block, there is at most
one frame more than streams, no block is smaller than what was asked for, and no more blocks
were ever obtained from `malloc` than that or what the earlier lookups obtained, however
many tasks there are. And the allocator never keeps the throttler from a step. -/
theorem frames_bounded (P : Program τ ρ ω) (kind : Kind) (frameSize : RecyclingAllocator.Size)
    (hsize : headerSize ≤ frameSize) (memory : RecyclingAllocator.State)
    (hmemory : (RecyclingAllocator.system kind).ReachableUnder (OneSize frameSize) memory)
    (hnone : memory.held = []) (earlier : List ℕ) (hearlier : memory.Obtained earlier)
    (scheduler : StaticQueueScheduler) (hempty : scheduler.head = scheduler.tail)
    (nStreams : BitVec 64) (hlow : 1 ≤ nStreams.toNat) (hdepth : nStreams.toNat < scheduler.depth)
    (out : ω) (tasks : List τ) (s : State τ ω)
    (hs : (system P kind frameSize
      (initial scheduler nStreams out tasks memory)).Reachable s) :
    (liveBlocks s.census.exec.frames s.blocks).Nodup ∧
      (liveBlocks s.census.exec.frames s.blocks).length ≤ nStreams.toNat + 1 ∧
      s.memory.Sound ∧
      (∃ blocks, s.memory.Obtained blocks ∧
        blocks.length ≤ max earlier.length (nStreams.toNat + 1)) ∧
      ∀ census, Census.step P s.census = some census → ∀ ptr, s.memory.obtained ptr = none →
        ∃ t, step P kind frameSize s (.run (some ptr)) = some t ∧ t.census = census := by
  obtain ⟨l, huniform⟩ := reachable_uniform hmemory
  have hlength : l.length = earlier.length := by
    have hobtained := huniform.obtained
    rw [hnone, List.map_nil, List.append_nil] at hobtained
    exact hobtained.length_eq hearlier
  have hinv : Inv nStreams.toNat earlier.length frameSize s := by
    apply hs.invariant
    · rintro _ rfl
      refine ⟨Census.initial_inv out tasks hempty hdepth, rfl, rfl, ?_, l, huniform, ?_⟩
      · show memory.held.Perm _
        rw [hnone]
        exact .refl _
      · show l.length + memory.held.length ≤ _
        rw [hnone, hlength]
        exact le_max_left _ _
    · exact fun _ _ _ hi _ hstep => step_inv hlow hi hstep
  obtain ⟨l', huniform', hbound⟩ := hinv.memory
  have hparked : parked s.census.place ≤ 1 := by
    unfold parked
    split <;> omega
  refine ⟨?_, hinv.live_le.trans (Nat.add_le_add_left hparked _), huniform'.sound, ?_,
    fun census hcensus ptr hfresh => hinv.progress hsize hcensus hfresh⟩
  · have hnodup := (List.nodup_append.mp huniform'.nodup).2.1
    rw [(hinv.held.map Prod.fst).nodup_iff, List.map_map] at hnodup
    simpa [Function.comp_def] using hnodup
  · refine ⟨_, huniform'.obtained, ?_⟩
    rw [List.length_append, List.length_map]
    exact hbound

/-- Coroutines that suspend so many times before they complete. -/
def countdown : Program ℕ Unit ℕ where
  resume
    | 0 => some (.inr ())
    | k + 1 => some (.inl k)
  emit completed _ := completed + 1

/-- Three coroutines over one stream: two blocks are enough. -/
theorem frames_bounded_one_stream :
    ∃ s : State ℕ ℕ, (system countdown .recyclingAllocator 48
        (initial (RingBuffer.new 2 (by decide)) 1 0 [1, 0, 2]
          RecyclingAllocator.initial)).Reachable s ∧
      s.memory.returned.length = 3 ∧ (liveBlocks s.census.exec.frames s.blocks).length ≤ 2 ∧
      ∃ blocks, s.memory.Obtained blocks ∧ blocks.length ≤ 2 := by
  let start : State ℕ ℕ :=
    initial (RingBuffer.new 2 (by decide)) 1 0 [1, 0, 2] RecyclingAllocator.initial
  have hrun : ((system countdown .recyclingAllocator 48 start).run start
      [.run (some 100), .run none, .run (some 200), .write 0 ⟨some 9, 9⟩, .run none, .run none,
        .run none, .run none]).map (fun s => s.memory.returned.length) = some 3 := by
    decide +kernel
  obtain ⟨s, hs, hthree⟩ := Option.map_eq_some_iff.mp hrun
  have hreach := Reachable.run (.init rfl) _ hs
  have hobtained : RecyclingAllocator.initial.Obtained [] :=
    ⟨List.nodup_nil, fun ptr => by simp [RecyclingAllocator.initial]⟩
  obtain ⟨-, hlive, -, hblocks, -⟩ := frames_bounded countdown .recyclingAllocator 48 (by decide)
    RecyclingAllocator.initial (.init rfl) rfl [] hobtained (RingBuffer.new 2 (by decide)) rfl 1
    (by decide) (by decide) 0 [1, 0, 2] s hreach
  exact ⟨s, hreach, hthree, hlive, hblocks⟩

end Coroutines.Throttler.Frames
