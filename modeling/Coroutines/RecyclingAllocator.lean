import Coroutines.Lib.Transition
import Coroutines.Lib.Links

/-!
# The recycling allocator

`applications/map/recycling_allocator.hpp`, and `tcalloc` of `applications/binary-search/
coro_infra.hpp`. A block that is freed goes to the front of a list, with the size it was asked
for in its header, and `alloc` looks at the front of that list before it calls `malloc`.

The client asks for at least a header, frees what it holds, once and with the size it asked for,
and may write what it likes over the header while it holds the block. `malloc` answers with any
address it has not given before, or with none.
-/

namespace Coroutines.RecyclingAllocator

open Transition Links Function

/-! ## The model -/

abbrev Size := BitVec 64

structure Header where
  next : Option ℕ
  size : Size
deriving DecidableEq

/-- `sizeof(Header)`. -/
def headerSize : Size := 16

/-- What `tcalloc` counts; `RecyclingAllocator` has no such members. -/
structure Stats where
  lastSizeAllocated : Size
  total : Size
  allocCount : Size

structure Allocator where
  root : Option ℕ
  stats : Stats

inductive Kind
  | recyclingAllocator
  | tcalloc
deriving DecidableEq

/-- How a call of `alloc` ends: with a block off the list, with one from `malloc`, or, when
`malloc` has none, with a null pointer or an exception. -/
inductive Allocated
  | recycled (mem : ℕ)
  | fresh (ptr : ℕ)
  | nullptr
  | badAlloc
deriving DecidableEq

/-- The members written before `malloc` is called. -/
def Kind.count : Kind → Stats → Size → Stats
  | .recyclingAllocator, stats, _ => stats
  | .tcalloc, stats, n =>
      { lastSizeAllocated := n, total := stats.total + n, allocCount := stats.allocCount + 1 }

/-- What comes of the answer of `malloc`. -/
def Kind.outcome : Kind → Option ℕ → Allocated
  | _, some ptr => .fresh ptr
  | .recyclingAllocator, none => .badAlloc
  | .tcalloc, none => .nullptr

/-- The end of `alloc`, with `malloc` the answer of `::malloc(n)`. -/
def allocMalloc (kind : Kind) (a : Allocator) (n : Size) (malloc : Option ℕ) :
    Allocated × Allocator :=
  (kind.outcome malloc, { a with stats := kind.count a.stats n })

def alloc (kind : Kind) (a : Allocator) (header : ℕ → Header) (n : Size) (malloc : Option ℕ) :
    Allocated × Allocator :=
  match a.root with
  | some mem =>
      if (header mem).size ≤ n then (.recycled mem, { a with root := (header mem).next })
      else allocMalloc kind a n malloc
  | none => allocMalloc kind a n malloc

def free (a : Allocator) (header : ℕ → Header) (ptr : ℕ) (n : Size) :
    Allocator × (ℕ → Header) :=
  ({ a with root := some ptr }, update header ptr { next := a.root, size := n })

structure State where
  allocator : Allocator
  /-- The header at the start of each block. -/
  header : ℕ → Header
  /-- The blocks of the client, with the sizes it asked for. -/
  held : List (ℕ × Size)
  /-- History: the size each block was obtained from `malloc` with. -/
  obtained : ℕ → Option Size
  /-- History: the blocks `alloc` returned, with the sizes asked for. -/
  returned : List (ℕ × Size)

inductive Act
  | alloc (n : Size) (malloc : Option ℕ)
  | free (ptr : ℕ) (n : Size)
  | write (ptr : ℕ) (bytes : Header)    -- the client writes to the start of its block
deriving DecidableEq

def initial : State where
  allocator := { root := none, stats := { lastSizeAllocated := 0, total := 0, allocCount := 0 } }
  header := fun _ => { next := none, size := 0 }
  held := []
  obtained := fun _ => none
  returned := []

def State.hand (s : State) (ptr : ℕ) (n : Size) : State :=
  { s with held := (ptr, n) :: s.held, returned := (ptr, n) :: s.returned }

def allocStep (kind : Kind) (s : State) (n : Size) (malloc : Option ℕ) : Option State :=
  match alloc kind s.allocator s.header n malloc with
  | (.recycled mem, a) => some ({ s with allocator := a }.hand mem n)
  | (.fresh ptr, a) =>
      if s.obtained ptr = none then
        some ({ s with allocator := a, obtained := update s.obtained ptr (some n) }.hand ptr n)
      else none
  | (_, a) => some { s with allocator := a }

def step (kind : Kind) (s : State) : Act → Option State
  | .alloc n malloc => if headerSize ≤ n then allocStep kind s n malloc else none
  | .free ptr n =>
      if (ptr, n) ∈ s.held then
        let (a, header) := free s.allocator s.header ptr n
        some { s with allocator := a, header := header, held := s.held.erase (ptr, n) }
      else none
  | .write ptr bytes =>
      if ptr ∈ s.held.map Prod.fst then
        some { s with header := update s.header ptr bytes }
      else none

def system (kind : Kind) : System State Act where
  Init s := s = initial
  step := step kind

/-! ## What the client is promised -/

def State.next (s : State) (ptr : ℕ) : Option ℕ := (s.header ptr).next

/-- The block is on the free list. -/
def State.Free (s : State) (ptr : ℕ) : Prop :=
  Linked s.next (fun _ => True) s.allocator.root ptr

/-- The block was obtained from `malloc` with at least this size. -/
def State.HasSize (s : State) (ptr : ℕ) (n : Size) : Prop :=
  ∃ size, s.obtained ptr = some size ∧ n ≤ size

structure State.Sound (s : State) : Prop where
  returned : ∀ ptr n, (ptr, n) ∈ s.returned → s.HasSize ptr n
  recorded : ∀ ptr, s.Free ptr → s.HasSize ptr (s.header ptr).size

/-- A small block comes back, and is returned for a large request. -/
def smallThenLarge : List Act := [.alloc 16 (some 100), .free 100 16, .alloc 32 none]

theorem not_sound_after_small_then_large :
    ¬ ∀ kind s, (system kind).Reachable s → s.Sound := by
  intro h
  have h0 : (system .recyclingAllocator).Reachable initial := .init rfl
  have hsound := h .recyclingAllocator _ (h0.run smallThenLarge rfl)
  obtain ⟨size, hsize, hle⟩ := hsound.returned 100 32 List.mem_cons_self
  cases hsize
  exact absurd hle (by decide)

/-! ## Requests that the first free block is large enough for -/

/-- The first free block, if there is one, is large enough for the request. -/
def FirstFits (s : State) : Act → Prop
  | .alloc n _ => ∀ mem, s.allocator.root = some mem → n ≤ (s.header mem).size
  | _ => True

/-- The free list is `l`: each block of it records the size it was obtained with, and none of
them is the client's. A block of the client was asked for with the size it was obtained with. -/
structure Inv (s : State) (l : List ℕ) : Prop where
  chain : Chain s.next s.allocator.root l
  nodup : (l ++ s.held.map Prod.fst).Nodup
  recorded : ∀ ptr ∈ l, s.obtained ptr = some (s.header ptr).size
  returned : ∀ ptr n, (ptr, n) ∈ s.returned → s.obtained ptr = some n
  held : ∀ b ∈ s.held, b ∈ s.returned

theorem initial_inv : Inv initial [] where
  chain := rfl
  nodup := List.nodup_nil
  recorded _ hptr := absurd hptr List.not_mem_nil
  returned _ _ hb := absurd hb List.not_mem_nil
  held _ hb := absurd hb List.not_mem_nil

theorem Inv.sound {s : State} {l : List ℕ} (h : Inv s l) : s.Sound where
  returned ptr n hb := ⟨n, h.returned ptr n hb, BitVec.le_refl n⟩
  recorded ptr hfree := ⟨_, h.recorded ptr (hfree.mem_chain h.chain), BitVec.le_refl _⟩

/-- A block of the client is not on the free list. -/
theorem Inv.not_free_of_held {s : State} {l : List ℕ} (h : Inv s l) {ptr : ℕ}
    (hheld : ptr ∈ s.held.map Prod.fst) : ptr ∉ l :=
  fun hl => (List.nodup_append.mp h.nodup).2.2 ptr hl ptr hheld rfl

/-- **`alloc` takes the first free block.** It was asked for with the size it records. -/
theorem Inv.recycle {s : State} {mem : ℕ} {l : List ℕ} {n : Size} (h : Inv s (mem :: l))
    (hsize : (s.header mem).size = n) :
    Inv ({ s with
      allocator := { s.allocator with root := (s.header mem).next } }.hand mem n) l where
  chain := h.chain.2
  nodup := by
    have hnodup := h.nodup
    rw [List.cons_append] at hnodup
    exact List.nodup_middle.mpr hnodup
  recorded ptr hptr := h.recorded ptr (List.mem_cons_of_mem _ hptr)
  returned ptr m hb := by
    rcases List.mem_cons.mp hb with hb | hb
    · cases hb
      rw [← hsize]
      exact h.recorded mem List.mem_cons_self
    · exact h.returned ptr m hb
  held b hb := by
    rcases List.mem_cons.mp hb with rfl | hb
    · exact List.mem_cons_self
    · exact List.mem_cons_of_mem _ (h.held b hb)

/-- **`alloc` returns a block from `malloc`.** -/
theorem Inv.obtain {s : State} {l : List ℕ} (h : Inv s l) {ptr : ℕ} (n : Size) {stats : Stats}
    (hfresh : s.obtained ptr = none) :
    Inv ({ s with
      allocator := { s.allocator with stats := stats }
      obtained := update s.obtained ptr (some n) }.hand ptr n) l := by
  have hne : ∀ p m, s.obtained p = some m → p ≠ ptr := by
    rintro p m hp rfl
    rw [hfresh] at hp
    cases hp
  have hfree : ptr ∉ l := fun hl => hne ptr _ (h.recorded ptr hl) rfl
  have hheld : ptr ∉ s.held.map Prod.fst := by
    intro hmem
    obtain ⟨⟨p, m⟩, hb, rfl⟩ := List.mem_map.mp hmem
    exact hne p m (h.returned p m (h.held _ hb)) rfl
  refine ⟨h.chain, ?_, fun p hp => ?_, fun p m hb => ?_, fun b hb => ?_⟩
  · refine List.nodup_middle.mpr (List.nodup_cons.mpr ⟨?_, h.nodup⟩)
    rw [List.mem_append]
    exact fun hmem => hmem.elim hfree hheld
  · have hrecorded := h.recorded p hp
    exact (update_of_ne (hne p _ hrecorded) _ _).trans hrecorded
  · rcases List.mem_cons.mp hb with hb | hb
    · cases hb
      exact update_self _ _ _
    · have hreturned := h.returned p m hb
      exact (update_of_ne (hne p m hreturned) _ _).trans hreturned
  · rcases List.mem_cons.mp hb with rfl | hb
    · exact List.mem_cons_self
    · exact List.mem_cons_of_mem _ (h.held b hb)

/-- **A freed block** goes to the front of the list. -/
theorem Inv.free {s : State} {l : List ℕ} (h : Inv s l) {ptr : ℕ} {n : Size}
    (hheld : (ptr, n) ∈ s.held) :
    Inv { s with
      allocator := { s.allocator with root := some ptr }
      header := update s.header ptr { next := s.allocator.root, size := n }
      held := s.held.erase (ptr, n) } (ptr :: l) := by
  have hptr : ptr ∉ l := h.not_free_of_held (List.mem_map_of_mem hheld)
  have hperm : (ptr :: l ++ (s.held.erase (ptr, n)).map Prod.fst).Perm
      (l ++ s.held.map Prod.fst) := by
    refine List.perm_middle.symm.trans (List.Perm.append_left l ?_)
    exact ((List.perm_cons_erase hheld).map Prod.fst).symm
  refine ⟨?_, hperm.nodup_iff.mpr h.nodup, fun p hp => ?_, h.returned, fun b hb => ?_⟩
  · refine ⟨rfl, ?_⟩
    show Chain _ (update s.header ptr _ ptr).next l
    rw [update_self]
    refine h.chain.congr fun p hp => ?_
    show (update s.header ptr _ p).next = _
    rw [update_of_ne (ne_of_mem_of_not_mem hp hptr)]
    rfl
  · show s.obtained p = some (update s.header ptr _ p).size
    rcases List.mem_cons.mp hp with rfl | hp
    · rw [update_self]
      exact h.returned p n (h.held _ hheld)
    · rw [update_of_ne (ne_of_mem_of_not_mem hp hptr)]
      exact h.recorded p hp
  · exact h.held b (List.mem_of_mem_erase hb)

/-- **What the client writes** into its own block leaves the free list alone. -/
theorem Inv.write {s : State} {l : List ℕ} (h : Inv s l) {ptr : ℕ} (bytes : Header)
    (hheld : ptr ∈ s.held.map Prod.fst) :
    Inv { s with header := update s.header ptr bytes } l := by
  have hne : ∀ p ∈ l, p ≠ ptr := fun p hp => ne_of_mem_of_not_mem hp (h.not_free_of_held hheld)
  refine ⟨h.chain.congr fun p hp => ?_, h.nodup, fun p hp => ?_, h.returned, h.held⟩
  · show (update s.header ptr bytes p).next = _
    rw [update_of_ne (hne p hp)]
    rfl
  · show s.obtained p = some (update s.header ptr bytes p).size
    rw [update_of_ne (hne p hp)]
    exact h.recorded p hp

/-- The end of `alloc` keeps the free list. -/
theorem Inv.malloc {kind : Kind} {s s' : State} {l : List ℕ} {n : Size} {malloc : Option ℕ}
    (h : Inv s l) (hs : allocStep kind s n malloc = some s')
    (hmalloc : alloc kind s.allocator s.header n malloc = allocMalloc kind s.allocator n malloc) :
    Inv s' l := by
  unfold allocStep at hs
  rw [hmalloc] at hs
  cases malloc with
  | some ptr =>
      simp only [allocMalloc, Kind.outcome] at hs
      split at hs
      · rename_i hfresh
        cases hs
        exact h.obtain n hfresh
      · cases hs
  | none =>
      cases kind with
      | recyclingAllocator | tcalloc =>
          cases hs
          exact ⟨h.chain, h.nodup, h.recorded, h.returned, h.held⟩

theorem alloc_nil (kind : Kind) {a : Allocator} (header : ℕ → Header) (n : Size)
    (malloc : Option ℕ) (hroot : a.root = none) :
    alloc kind a header n malloc = allocMalloc kind a n malloc := by
  unfold alloc
  rw [hroot]

theorem alloc_cons (kind : Kind) {a : Allocator} (header : ℕ → Header) (n : Size)
    (malloc : Option ℕ) {mem : ℕ} (hroot : a.root = some mem) :
    alloc kind a header n malloc =
      if (header mem).size ≤ n then (.recycled mem, { a with root := (header mem).next })
      else allocMalloc kind a n malloc := by
  unfold alloc
  rw [hroot]

theorem allocStep_inv {kind : Kind} {s s' : State} {l : List ℕ} {n : Size} {malloc : Option ℕ}
    (h : Inv s l) (hfits : ∀ mem, s.allocator.root = some mem → n ≤ (s.header mem).size)
    (hs : allocStep kind s n malloc = some s') : ∃ l, Inv s' l := by
  rcases l with _ | ⟨mem, l⟩
  · exact ⟨[], h.malloc hs (alloc_nil kind s.header n malloc h.chain)⟩
  · have halloc := alloc_cons kind s.header n malloc h.chain.1
    by_cases hle : (s.header mem).size ≤ n
    · have hsize : (s.header mem).size = n := BitVec.le_antisymm hle (hfits mem h.chain.1)
      rw [if_pos hle] at halloc
      unfold allocStep at hs
      rw [halloc] at hs
      cases hs
      exact ⟨l, h.recycle hsize⟩
    · rw [if_neg hle] at halloc
      exact ⟨mem :: l, h.malloc hs halloc⟩

theorem step_inv {kind : Kind} {s s' : State} {act : Act} (h : ∃ l, Inv s l)
    (hok : FirstFits s act) (hs : step kind s act = some s') : ∃ l, Inv s' l := by
  obtain ⟨l, h⟩ := h
  cases act with
  | alloc n malloc =>
      simp only [step] at hs
      split at hs
      · exact allocStep_inv h hok hs
      · cases hs
  | free ptr n =>
      simp only [step] at hs
      split at hs
      · rename_i hheld
        cases hs
        exact ⟨ptr :: l, h.free hheld⟩
      · cases hs
  | write ptr bytes =>
      simp only [step] at hs
      split at hs
      · rename_i hheld
        cases hs
        exact ⟨l, h.write bytes hheld⟩
      · cases hs

/-- **A request larger than the first free block** is answered with that block. -/
theorem Inv.alloc_large {kind : Kind} {s s' : State} {l : List ℕ} (h : Inv s l) {n : Size}
    {malloc : Option ℕ} {mem : ℕ} (hroot : s.allocator.root = some mem)
    (hlarge : ¬ n ≤ (s.header mem).size) (hs : allocStep kind s n malloc = some s') :
    ¬ s'.Sound := by
  obtain ⟨l, rfl, -⟩ := chain_some.mp (hroot ▸ h.chain)
  have halloc := alloc_cons kind s.header n malloc hroot
  rw [if_pos (BitVec.le_of_lt (BitVec.not_le.mp hlarge))] at halloc
  unfold allocStep at hs
  rw [halloc] at hs
  cases hs
  intro hsound
  obtain ⟨size, hsize, hle⟩ := hsound.returned mem n List.mem_cons_self
  have hrecorded : s.obtained mem = some (s.header mem).size :=
    h.recorded mem List.mem_cons_self
  have heq : some (s.header mem).size = some size := hrecorded.symm.trans hsize
  exact hlarge (Option.some.inj heq ▸ hle)

/-- **Blocks are large enough exactly while every request fits the first free block.** For both
allocators, every answer of `malloc` and every sequence of calls of a client that keeps its
part: as long as each request is at most the size that the first free block records, what
`alloc` returns was obtained with at least the size asked for, and no block of the free list
records more than it has; and the first larger request is answered with a block that is too
small. -/
theorem sound_iff_first_fits (kind : Kind) (s : State)
    (h : (system kind).ReachableUnder FirstFits s) :
    s.Sound ∧ ∀ act t, step kind s act = some t → ¬ FirstFits s act → ¬ t.Sound := by
  have hinv : ∃ l, Inv s l := by
    apply h.invariant
    · rintro _ rfl
      exact ⟨[], initial_inv⟩
    · exact fun _ _ _ hi hok hs => step_inv hi hok hs
  obtain ⟨l, hinv⟩ := hinv
  refine ⟨hinv.sound, fun act t hs hnot => ?_⟩
  cases act with
  | alloc n malloc =>
      simp only [FirstFits, not_forall] at hnot
      obtain ⟨mem, hroot, hlarge⟩ := hnot
      simp only [step] at hs
      split at hs
      · exact hinv.alloc_large hroot hlarge hs
      · cases hs
  | free ptr n => exact absurd trivial hnot
  | write ptr bytes => exact absurd trivial hnot

/-- Two sizes go round: the larger block comes back, a small request passes it by, and a
request of its own size gets it. -/
def twoSizes : List Act :=
  [.alloc 32 (some 100), .alloc 16 (some 200), .write 100 ⟨some 7, 7⟩, .free 100 32,
    .alloc 16 (some 300), .alloc 32 none]

theorem sound_iff_first_fits_two_sizes :
    ∃ s, (system .tcalloc).ReachableUnder FirstFits s ∧
      s.returned = [(100, 32), (300, 16), (200, 16), (100, 32)] ∧ s.Sound := by
  have hm : (system .tcalloc).Meets FirstFits initial twoSizes :=
    ⟨by rintro _ ⟨⟩, _, rfl, by rintro _ ⟨⟩, _, rfl, trivial, _, rfl, trivial, _, rfl,
      by rintro _ ⟨⟩; decide, _, rfl, by rintro _ ⟨⟩; decide, _, rfl, trivial⟩
  have h0 : (system .tcalloc).ReachableUnder FirstFits initial := .init rfl
  have hs := h0.run hm rfl
  exact ⟨_, hs, rfl, (sound_iff_first_fits .tcalloc _ hs).1⟩

end Coroutines.RecyclingAllocator
