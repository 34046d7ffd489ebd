import Coroutines.Lib.Loop
import Coroutines.RecyclingAllocator

/-!
# Requests of one size

The frames of one coroutine all have the same size, so the first free block always fits. What is
obtained from `malloc` is then either held or free, and `malloc` is called only when nothing is
free: as many blocks are obtained as were once held at the same time. The destructor gives all
of them back, if the client has.
-/

namespace Coroutines.RecyclingAllocator

open Transition System Links Loop Function

/-! ## The model -/

/-- One round of the loop in the destructor; the second component is what was given to `::free`. -/
def destroyBody (header : ℕ → Header) (x : Option ℕ × List ℕ) :
    Option ((Option ℕ × List ℕ) ⊕ List ℕ) :=
  match x.1 with
  | none => some (.inr x.2)
  | some current => some (.inl ((header current).next, x.2 ++ [current]))

/-- `~RecyclingAllocator`: the blocks that are given back, in turn. -/
def destroy (fuel : ℕ) (a : Allocator) (header : ℕ → Header) : Option (List ℕ) :=
  iterate (destroyBody header) fuel (a.root, [])

/-- Every request is for `n` bytes. -/
def OneSize (n : Size) : State → Act → Prop
  | _, .alloc m _ => m = n
  | _, _ => True

/-- The allocator, and the most blocks that were held at once so far. -/
def peaked (kind : Kind) : System (State × ℕ) Act :=
  (system kind).watched 0 fun peak _ _ s => max peak s.held.length

/-- `blocks` are what was obtained from `malloc`. -/
structure State.Obtained (s : State) (blocks : List ℕ) : Prop where
  nodup : blocks.Nodup
  mem : ∀ ptr, ptr ∈ blocks ↔ s.obtained ptr ≠ none

/-! ## What one size keeps -/

/-- Every block is on the free list `l` or the client's, and has the one size. -/
structure Uniform (n : Size) (s : State) (l : List ℕ) : Prop extends Inv s l where
  recordedSize : ∀ ptr ∈ l, (s.header ptr).size = n
  heldSize : ∀ b ∈ s.held, b.2 = n
  known : ∀ ptr, s.obtained ptr ≠ none ↔ ptr ∈ l ∨ ptr ∈ s.held.map Prod.fst

theorem initial_uniform (n : Size) : Uniform n initial [] where
  toInv := initial_inv
  recordedSize _ hptr := absurd hptr List.not_mem_nil
  heldSize _ hb := absurd hb List.not_mem_nil
  known ptr := by simp [initial]

section
variable {kind : Kind} {n : Size} {s s' : State} {l : List ℕ}

/-- What was obtained is what is free or held. -/
theorem Uniform.obtained (h : Uniform n s l) : s.Obtained (l ++ s.held.map Prod.fst) where
  nodup := h.nodup
  mem ptr := by
    rw [List.mem_append]
    exact (h.known ptr).symm

theorem State.Obtained.length_eq {blocks blocks' : List ℕ} (h : s.Obtained blocks)
    (h' : s.Obtained blocks') : blocks.length = blocks'.length := by
  apply List.Perm.length_eq
  refine (List.perm_ext_iff_of_nodup h.nodup h'.nodup).mpr fun ptr => ?_
  rw [h.mem, h'.mem]

/-- **A free block is used first.** -/
theorem Uniform.recycle (kind : Kind) (malloc : Option ℕ) {mem : ℕ} (h : Uniform n s (mem :: l)) :
    alloc kind s.allocator s.header n malloc =
        (.recycled mem, { s.allocator with root := (s.header mem).next }) ∧
      Uniform n ({ s with
        allocator := { s.allocator with root := (s.header mem).next } }.hand mem n) l := by
  have hsize := h.recordedSize mem List.mem_cons_self
  refine ⟨?_, h.toInv.recycle hsize, ?_, ?_, ?_⟩
  · rw [alloc_cons kind s.header n malloc h.chain.1, if_pos (BitVec.le_of_eq hsize)]
  · exact fun ptr hptr => h.recordedSize ptr (List.mem_cons_of_mem _ hptr)
  · intro b hb
    rcases List.mem_cons.mp hb with rfl | hb
    · rfl
    · exact h.heldSize b hb
  · intro ptr
    show s.obtained ptr ≠ none ↔ ptr ∈ l ∨ ptr ∈ mem :: s.held.map Prod.fst
    rw [h.known, List.mem_cons, List.mem_cons]
    tauto

/-- **A block is obtained** when none is free. -/
theorem Uniform.obtain (h : Uniform n s []) {ptr : ℕ} (stats : Stats)
    (hfresh : s.obtained ptr = none) :
    Uniform n ({ s with
      allocator := { s.allocator with stats := stats }
      obtained := update s.obtained ptr (some n) }.hand ptr n) [] := by
  refine ⟨h.toInv.obtain n hfresh, ?_, ?_, ?_⟩
  · exact fun p hp => absurd hp List.not_mem_nil
  · intro b hb
    rcases List.mem_cons.mp hb with rfl | hb
    · rfl
    · exact h.heldSize b hb
  · intro p
    show update s.obtained ptr (some n) p ≠ none ↔ p ∈ [] ∨ p ∈ ptr :: s.held.map Prod.fst
    by_cases hp : p = ptr
    · simp [hp]
    · rw [update_of_ne hp, h.known, List.mem_cons]
      tauto

/-- **A block is freed.** -/
theorem Uniform.free {ptr : ℕ} {m : Size} (h : Uniform n s l) (hheld : (ptr, m) ∈ s.held) :
    Uniform n { s with
      allocator := { s.allocator with root := some ptr }
      header := update s.header ptr { next := s.allocator.root, size := m }
      held := s.held.erase (ptr, m) } (ptr :: l) := by
  refine ⟨h.toInv.free hheld, ?_, ?_, ?_⟩
  · intro p hp
    show (update s.header ptr _ p).size = n
    by_cases hpp : p = ptr
    · rw [hpp, update_self]
      exact h.heldSize _ hheld
    · rw [update_of_ne hpp]
      exact h.recordedSize p (List.mem_of_ne_of_mem hpp hp)
  · exact fun b hb => h.heldSize b (List.mem_of_mem_erase hb)
  · intro p
    show s.obtained p ≠ none ↔ p ∈ ptr :: l ∨ p ∈ (s.held.erase (ptr, m)).map Prod.fst
    have hperm := (List.perm_cons_erase hheld).map Prod.fst
    rw [h.known, hperm.mem_iff, List.map_cons, List.mem_cons, List.mem_cons]
    tauto

/-- **The client writes** to a block of its own. -/
theorem Uniform.write {ptr : ℕ} (bytes : Header) (h : Uniform n s l)
    (hheld : ptr ∈ s.held.map Prod.fst) :
    Uniform n { s with header := update s.header ptr bytes } l := by
  refine ⟨h.toInv.write bytes hheld, fun p hp => ?_, h.heldSize, h.known⟩
  show (update s.header ptr bytes p).size = n
  rw [update_of_ne (ne_of_mem_of_not_mem hp (h.not_free_of_held hheld))]
  exact h.recordedSize p hp

/-- **A request is served** as long as `malloc` has a block. -/
theorem Uniform.served (kind : Kind) (h : Uniform n s l) (hsize : headerSize ≤ n) {ptr : ℕ}
    (hfresh : s.obtained ptr = none) :
    ∃ mem t, ((alloc kind s.allocator s.header n (some ptr)).1 = .recycled mem ∨
        (alloc kind s.allocator s.header n (some ptr)).1 = .fresh mem) ∧
      RecyclingAllocator.step kind s (.alloc n (some ptr)) = some t ∧
      t.held = (mem, n) :: s.held := by
  rcases l with _ | ⟨mem, l⟩
  · have halloc := alloc_nil kind s.header n (some ptr) h.chain
    let a : Allocator := { s.allocator with stats := kind.count s.allocator.stats n }
    refine ⟨ptr, { s with allocator := a, obtained := update s.obtained ptr (some n) }.hand ptr n,
      Or.inr (congrArg Prod.fst halloc), ?_, rfl⟩
    simp only [RecyclingAllocator.step, if_pos hsize, allocStep, halloc, allocMalloc,
      Kind.outcome, if_pos hfresh]
    rfl
  · obtain ⟨halloc, -⟩ := h.recycle kind (some ptr)
    let a : Allocator := { s.allocator with root := (s.header mem).next }
    refine ⟨mem, { s with allocator := a }.hand mem n, Or.inl (congrArg Prod.fst halloc), ?_, rfl⟩
    simp only [RecyclingAllocator.step, if_pos hsize, allocStep, halloc]
    rfl

/-- **One call**: what is free or held grows only where what is held does. -/
theorem Uniform.step (h : Uniform n s l) {act : Act} (hok : OneSize n s act)
    (hs : step kind s act = some s') :
    ∃ l', Uniform n s' l' ∧
      l'.length + s'.held.length = max (l.length + s.held.length) s'.held.length := by
  cases act with
  | alloc m malloc =>
      obtain rfl : m = n := hok
      simp only [RecyclingAllocator.step] at hs
      split at hs
      · unfold allocStep at hs
        rcases l with _ | ⟨mem, l⟩
        · rw [alloc_nil kind s.header m malloc h.chain] at hs
          cases malloc with
          | some ptr =>
              simp only [allocMalloc, Kind.outcome] at hs
              split at hs
              · rename_i hfresh
                cases hs
                refine ⟨[], h.obtain _ hfresh, ?_⟩
                show 0 + (s.held.length + 1) = max (0 + s.held.length) (s.held.length + 1)
                omega
              · cases hs
          | none =>
              have hsame : ∀ a : Allocator, a.root = s.allocator.root →
                  Uniform m { s with allocator := a } [] := by
                intro a ha
                have hchain : Chain s.next a.root [] := ha ▸ h.chain
                exact ⟨⟨hchain, h.nodup, h.recorded, h.returned, h.held⟩, h.recordedSize,
                  h.heldSize, h.known⟩
              cases kind with
              | recyclingAllocator | tcalloc =>
                  cases hs
                  exact ⟨[], hsame _ rfl, by simp⟩
        · obtain ⟨halloc, huniform⟩ := h.recycle kind malloc
          rw [halloc] at hs
          cases hs
          refine ⟨l, huniform, ?_⟩
          show l.length + (s.held.length + 1) =
            max (l.length + 1 + s.held.length) (s.held.length + 1)
          omega
      · cases hs
  | free ptr m =>
      simp only [RecyclingAllocator.step] at hs
      split at hs
      · rename_i hheld
        cases hs
        refine ⟨ptr :: l, h.free hheld, ?_⟩
        have hlength := (List.perm_cons_erase hheld).length_eq
        rw [List.length_cons] at hlength
        show l.length + 1 + (s.held.erase (ptr, m)).length =
          max (l.length + s.held.length) (s.held.erase (ptr, m)).length
        omega
      · cases hs
  | write ptr bytes =>
      simp only [RecyclingAllocator.step] at hs
      split at hs
      · rename_i hheld
        cases hs
        exact ⟨l, h.write bytes hheld, by simp⟩
      · cases hs

/-- The destructor gives back the free list. -/
theorem iterate_destroyBody {header : ℕ → Header} {root : Option ℕ} {l freed : List ℕ} {fuel : ℕ}
    (hchain : Chain (fun ptr => (header ptr).next) root l) (hfuel : l.length < fuel) :
    iterate (destroyBody header) fuel (root, freed) = some (freed ++ l) := by
  induction l generalizing root freed fuel with
  | nil =>
      obtain ⟨fuel, rfl⟩ : ∃ m, fuel = m + 1 := ⟨fuel - 1, by omega⟩
      rw [chain_nil] at hchain
      subst hchain
      rw [List.append_nil]
      exact iterate_exit fuel rfl
  | cons ptr l ih =>
      obtain ⟨fuel, rfl⟩ : ∃ m, fuel = m + 1 := ⟨fuel - 1, by omega⟩
      obtain ⟨rfl, hrest⟩ := hchain
      rw [iterate_next fuel (t := ((header ptr).next, freed ++ [ptr])) rfl,
        ih hrest (Nat.lt_of_succ_lt_succ hfuel), List.append_assoc]
      rfl

theorem Uniform.destroy (h : Uniform n s l) (hheld : s.held = []) {fuel : ℕ}
    (hfuel : l.length < fuel) :
    RecyclingAllocator.destroy fuel s.allocator s.header = some l ∧ s.Obtained l := by
  have hobtained := h.obtained
  rw [hheld, List.map_nil, List.append_nil] at hobtained
  have hfreed : RecyclingAllocator.destroy fuel s.allocator s.header = some ([] ++ l) :=
    iterate_destroyBody h.chain hfuel
  exact ⟨hfreed, hobtained⟩

end

/-! ## Whole runs -/

theorem reachable_uniform {kind : Kind} {n : Size} {s : State}
    (h : (system kind).ReachableUnder (OneSize n) s) : ∃ l, Uniform n s l := by
  apply h.invariant
  · rintro _ rfl
    exact ⟨[], initial_uniform n⟩
  · rintro s act t ⟨l, huniform⟩ hok hs
    obtain ⟨l', huniform', -⟩ := huniform.step hok hs
    exact ⟨l', huniform'⟩

/-- **As many blocks are obtained as were once held.** For both allocators, every answer of
`malloc`, every size from that of a header on and every sequence of calls of a client that keeps its
part and only asks for that size: a request is served as long as `malloc` has a block, what `alloc`
returns is large enough, no block is held twice, and the blocks that were obtained from `malloc` are
as many as were held at once at some point. When nothing is held any more the destructor gives every
one of them back, once. -/
theorem obtained_eq_peak (kind : Kind) (n : Size) (hsize : headerSize ≤ n) (s : State) (peak : ℕ)
    (h : (peaked kind).ReachableUnder (fun x => OneSize n x.1) (s, peak)) :
    (∀ ptr, s.obtained ptr = none → ∃ mem t, step kind s (.alloc n (some ptr)) = some t ∧
      t.held = (mem, n) :: s.held) ∧
    s.Sound ∧ (s.held.map Prod.fst).Nodup ∧
      (∃ blocks, s.Obtained blocks ∧ blocks.length = peak) ∧
      (s.held = [] → ∀ fuel, peak < fuel → ∃ freed,
        destroy fuel s.allocator s.header = some freed ∧ s.Obtained freed) := by
  have hinv : ∃ l, Uniform n s l ∧ l.length + s.held.length = peak := by
    apply h.watched_invariant (I := fun s peak =>
      ∃ l, Uniform n s l ∧ l.length + s.held.length = peak)
    · rintro _ rfl
      exact ⟨[], initial_uniform n, rfl⟩
    · rintro s peak act t ⟨l, huniform, hpeak⟩ hok hs
      obtain ⟨l', huniform', hpeak'⟩ := huniform.step hok hs
      refine ⟨l', huniform', ?_⟩
      rw [hpeak', hpeak]
  obtain ⟨l, huniform, hpeak⟩ := hinv
  refine ⟨fun ptr hfresh => ?_, huniform.sound, (List.nodup_append.mp huniform.nodup).2.1, ?_,
    fun hheld fuel hfuel => ?_⟩
  · obtain ⟨mem, t, -, ht, hheld⟩ := huniform.served kind hsize hfresh
    exact ⟨mem, t, ht, hheld⟩
  · refine ⟨_, huniform.obtained, ?_⟩
    rw [List.length_append, List.length_map]
    exact hpeak
  · rw [hheld] at hpeak
    have hlength : l.length < fuel := by
      rw [← hpeak] at hfuel
      exact hfuel
    exact ⟨l, huniform.destroy hheld hlength⟩

/-- Three requests, two of them at once. -/
def threeRequests : List Act :=
  [.alloc 32 (some 100), .alloc 32 (some 200), .write 100 ⟨some 7, 7⟩, .free 100 32,
    .alloc 32 none, .free 200 32, .free 100 32]

theorem obtained_eq_peak_three_requests :
    ∃ s : State, (peaked .tcalloc).ReachableUnder (fun x => OneSize 32 x.1) (s, 2) ∧
      s.returned = [(100, 32), (200, 32), (100, 32)] ∧
      (∃ blocks, s.Obtained blocks ∧ blocks.length = 2) ∧
      ∃ freed, destroy 3 s.allocator s.header = some freed ∧ s.Obtained freed := by
  have hm : (peaked .tcalloc).Meets (fun x => OneSize 32 x.1) (initial, 0) threeRequests :=
    ⟨rfl, _, rfl, rfl, _, rfl, trivial, _, rfl, trivial, _, rfl, rfl, _, rfl, trivial, _, rfl,
      trivial, _, rfl, trivial⟩
  have h0 : (peaked .tcalloc).ReachableUnder (fun x => OneSize 32 x.1) (initial, 0) :=
    .init ⟨rfl, rfl⟩
  have hs := h0.run hm rfl
  obtain ⟨-, -, -, hblocks, hdestroy⟩ := obtained_eq_peak .tcalloc 32 (by decide) _ 2 hs
  exact ⟨_, hs, rfl, hblocks, hdestroy rfl 3 (by decide)⟩

end Coroutines.RecyclingAllocator
