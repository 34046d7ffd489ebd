import Coroutines.BinarySearch.Vanilla
import Coroutines.Throttler

/-!
# Interleaved binary search by coroutines

`applications/binary-search/coroutine.hpp` over `coro_infra.hpp`. `coro_binary_search` awaits
a prefetch before each probe; `coro_multi_lookup` spawns one coroutine for each key through a
throttler of `n_streams`, runs the scheduler, and asserts that every key was counted. The
scheduler is a ring of 256 slots.
-/

namespace Coroutines.BinarySearch

open Loop Throttler

/-! ## The model -/

/-- Where a `coro_binary_search` is suspended. -/
inductive Point
  | start                           -- at its initial suspend
  | prefetched (half middle : ℕ)    -- awaiting the prefetch of `*middle`
deriving DecidableEq

/-- The parameters and locals of a `coro_binary_search`. -/
structure SearchTask where
  first : ℕ
  last : ℕ
  key : ℤ
  len : ℕ := 0
  point : Point := .start
deriving DecidableEq

/-- `while (len > 0)`, up to the prefetch of the next probe. A search that ends gives its key
and whether it was found. -/
def SearchTask.next (t : SearchTask) : SearchTask ⊕ (ℤ × Bool) :=
  if 0 < t.len then
    let half := t.len / 2
    let middle := t.first + half
    .inl { t with point := .prefetched half middle }
  else .inr (t.key, false)

/-- `coro_binary_search`, from one suspension to the next or to its end. -/
def coroBinarySearch (dataset : List ℤ) (t : SearchTask) :
    Option (SearchTask ⊕ (ℤ × Bool)) :=
  match t.point with
  | .start => some { t with len := t.last - t.first }.next
  | .prefetched half middle => do
      let x ← dataset[middle]?
      let t := if x < t.key then { t with first := middle + 1, len := t.len - half - 1 }
        else { t with len := half }
      if x = t.key then some (.inr (t.key, true)) else some t.next

/-- The static counters. -/
structure Counters where
  foundCount : ℕ := 0
  notFoundCount : ℕ := 0
  /-- History: the keys whose lookups came to their end. -/
  finished : List ℤ := []
deriving DecidableEq

def onFound (c : Counters) : Counters := { c with foundCount := c.foundCount + 1 }

def onNotFound (c : Counters) : Counters := { c with notFoundCount := c.notFoundCount + 1 }

def Counters.count (c : Counters) (r : ℤ × Bool) : Counters :=
  let c := if r.2 then onFound c else onNotFound c
  { c with finished := c.finished ++ [r.1] }

def searchProgram (dataset : List ℤ) : Program SearchTask (ℤ × Bool) Counters where
  resume := coroBinarySearch dataset
  emit := Counters.count

/-- What a call of `coro_multi_lookup` comes to, with the counters when the assertion is
reached. -/
inductive Outcome
  | assertionFailed (counters : Counters)
  | returned (counters : Counters) (result : ℕ) (after : Exec SearchTask Counters)

/-- The counters are zero before the call. -/
def coroMultiLookup (fuel : ℕ) (dataset lookups : List ℤ) (scheduler : StaticQueueScheduler)
    (nStreams : BitVec 64) : Option Outcome := do
  let s : Exec SearchTask Counters :=
    { frames := [], scheduler := scheduler, limit := nStreams, out := {} }
  let tasks := lookups.map fun key =>
    ({ first := 0, last := dataset.length, key := key } : SearchTask)
  let s ← tasks.foldlM (spawn (searchProgram dataset) fuel) s
  let s ← run (searchProgram dataset) fuel s
  if s.out.foundCount + s.out.notFoundCount = lookups.length then
    let tmp := s.out.foundCount
    -- the counters are reset, and the throttler is destroyed
    let after ← run (searchProgram dataset) fuel { s with out := {} }
    some (.returned s.out tmp after)
  else some (.assertionFailed s.out)

/-! ## One search -/

/-- A search that awaits the probe of a nonempty window. -/
def SearchTask.at (last : ℕ) (key : ℤ) (c : Cursor) : SearchTask where
  first := c.first
  last := last
  key := key
  len := c.len
  point := .prefetched (c.len / 2) (c.first + c.len / 2)

/-- A window that is not empty is probed next. -/
theorem coroBinarySearch_probe {dataset : List ℤ} (last : ℕ) (key : ℤ) {x : ℤ} {c : Cursor}
    (hx : dataset[c.first + c.len / 2]? = some x) :
    coroBinarySearch dataset (.at last key c) =
      if x = key then some (.inr (key, true))
      else if 0 < (c.narrow x key).len then some (.inl (.at last key (c.narrow x key)))
      else some (.inr (key, false)) := by
  unfold coroBinarySearch SearchTask.at Cursor.narrow
  simp only [hx, Option.bind_eq_bind, Option.bind_some]
  by_cases hlt : x < key
  · simp only [if_pos hlt, SearchTask.next]
    split
    · rfl
    · split <;> rfl
  · simp only [if_neg hlt, SearchTask.next]
    split
    · rfl
    · split <;> rfl

/-- **A search answers as the plain loop does**, one probe for each resumption. -/
theorem iterate_at {dataset : List ℤ} {last fuel : ℕ} {key : ℤ} {c : Cursor}
    (h : c.Within dataset) (hlen : 0 < c.len) (hfuel : c.len ≤ fuel) :
    iterate (coroBinarySearch dataset) fuel (.at last key c) =
      some (key, verdict dataset key c) := by
  induction fuel generalizing c with
  | zero => omega
  | succ fuel ih =>
      obtain ⟨x, hx⟩ := h.probe hlen
      have hstep := coroBinarySearch_probe last key hx
      by_cases hhit : x = key
      · rw [if_pos hhit] at hstep
        subst hhit
        rw [iterate_exit _ hstep, verdict_hit hlen hx]
      · rw [if_neg hhit] at hstep
        rw [verdict_narrow h hlen hx hhit]
        by_cases hmore : 0 < (c.narrow x key).len
        · have hless := Cursor.narrow_len hlen x key
          rw [if_pos hmore] at hstep
          rw [iterate_next _ hstep]
          exact ih (h.narrow hlen x key) hmore (by omega)
        · rw [if_neg hmore] at hstep
          rw [iterate_exit _ hstep, verdict_empty key (by omega)]

/-- What a search from its initial suspend gives. -/
theorem iterate_start (dataset : List ℤ) (key : ℤ) :
    iterate (coroBinarySearch dataset) (dataset.length + 1)
        { first := 0, last := dataset.length, key := key } =
      some (key, verdict dataset key { first := 0, len := dataset.length }) := by
  rcases Nat.eq_zero_or_pos dataset.length with hzero | hpos
  · have hstep : coroBinarySearch dataset { first := 0, last := dataset.length, key := key } =
        some (.inr (key, false)) := by
      simp [coroBinarySearch, SearchTask.next, hzero]
    rw [iterate_exit _ hstep, verdict_empty key hzero]
  · have hstep : coroBinarySearch dataset { first := 0, last := dataset.length, key := key } =
        some (.inl (.at dataset.length key { first := 0, len := dataset.length })) := by
      simp only [coroBinarySearch, SearchTask.next, Nat.sub_zero, if_pos hpos]
      rfl
    rw [iterate_next _ hstep]
    exact iterate_at (Nat.le_of_eq (Nat.zero_add _)) hpos (Nat.le_refl _)

/-! ## What is counted -/

/-- Each lookup that comes to its end is counted once, as found or as not found. -/
theorem foldl_count (done : List (ℤ × Bool)) (c : Counters) :
    (done.foldl Counters.count c).foundCount = c.foundCount + done.countP Prod.snd ∧
    (done.foldl Counters.count c).foundCount + (done.foldl Counters.count c).notFoundCount =
      c.foundCount + c.notFoundCount + done.length ∧
    (done.foldl Counters.count c).finished = c.finished ++ done.map Prod.fst := by
  induction done generalizing c with
  | nil => simp
  | cons r done ih =>
      obtain ⟨hfound, hsum, hfinished⟩ := ih (c.count r)
      rw [List.foldl_cons, List.countP_cons, List.length_cons, List.map_cons]
      obtain ⟨key, b⟩ := r
      cases b with
      | true =>
          refine ⟨?_, ?_, ?_⟩
          · rw [hfound]
            simp only [Counters.count, onFound, if_true]
            omega
          · rw [hsum]
            simp only [Counters.count, onFound, if_true]
            omega
          · rw [hfinished]
            simp [Counters.count, onFound]
      | false =>
          refine ⟨?_, ?_, ?_⟩
          · rw [hfound]
            simp only [Counters.count, onNotFound, if_false, Bool.false_eq_true]
            omega
          · rw [hsum]
            simp only [Counters.count, onNotFound, if_false, Bool.false_eq_true]
            omega
          · rw [hfinished]
            simp [Counters.count, onNotFound]

/-- The results that the lookups owe. -/
def answers (dataset lookups : List ℤ) : List (ℤ × Bool) :=
  lookups.map fun key => (key, verdict dataset key { first := 0, len := dataset.length })

theorem answers_owed (dataset lookups : List ℤ) :
    List.Forall₂ (fun task r =>
        iterate (searchProgram dataset).resume (dataset.length + 1) task = some r)
      (lookups.map fun key => { first := 0, last := dataset.length, key := key })
      (answers dataset lookups) := by
  unfold answers
  rw [List.forall₂_map_left_iff, List.forall₂_map_right_iff]
  exact List.forall₂_same.mpr fun key _ => iterate_start dataset key

/-! ## Many searches over a ring of 256 slots -/

section
variable (dataset : List ℤ) {lookups : List ℤ} {scheduler : StaticQueueScheduler}
  {nStreams : BitVec 64} {fuel : ℕ}

/-- **Short of a full ring** the assertion holds, and the count is the plain loop's. -/
theorem coroMultiLookup_returns (hempty : scheduler.head = scheduler.tail)
    (hpos : 1 ≤ nStreams.toNat)
    (hlow : nStreams.toNat < scheduler.depth ∨ lookups.length < scheduler.depth)
    (hfuel : nStreams.toNat * (dataset.length + 1) < fuel) :
    ∃ counters after, coroMultiLookup fuel dataset lookups scheduler nStreams =
        some (.returned counters counters.foundCount after) ∧
      counters.finished.Perm lookups ∧
      counters.foundCount + counters.notFoundCount = lookups.length ∧
      counters.foundCount = (answers dataset lookups).countP Prod.snd := by
  obtain ⟨s₁, done₁, queue₁, lost₁, hspawn, h₁⟩ :=
    (initial_spawned (searchProgram dataset) (dataset.length + 1) nStreams {}
      hempty).spawnMany hpos hfuel (answers_owed dataset lookups)
  have hanswers : (answers dataset lookups).length = lookups.length := List.length_map _
  rw [List.nil_append] at h₁
  obtain ⟨s₂, done₂, hrun₂, h₂⟩ := h₁.complete (by rw [hanswers]; exact hlow) hfuel
  have hperm : done₂.Perm (answers dataset lookups) := by
    simpa using h₂.flight.results
  obtain ⟨hfound, hsum, hfinished⟩ := foldl_count done₂ {}
  have hout : s₂.out = done₂.foldl Counters.count {} := h₂.out
  rw [← hout] at hfound hsum hfinished
  rw [Nat.zero_add] at hfound
  rw [Nat.zero_add, Nat.zero_add, hperm.length_eq, hanswers] at hsum
  -- the scheduler is empty when the throttler is destroyed
  obtain ⟨after, hafter⟩ : ∃ after, run (searchProgram dataset) fuel { s₂ with out := {} } =
      some after := by
    obtain ⟨k, rfl⟩ : ∃ k, fuel = k + 1 := ⟨fuel - 1, by omega⟩
    have htry : StaticQueueScheduler.tryRemoveNextTask s₂.scheduler = (none, s₂.scheduler) :=
      h₂.holding.holds.tryPop_nil
    exact ⟨_, iterate_exit k (by simp only [runBody, htry]; rfl)⟩
  refine ⟨s₂.out, after, ?_, ?_, hsum, hfound.trans (hperm.countP_eq _)⟩
  · simp only [coroMultiLookup, hspawn, hrun₂, Option.bind_eq_bind, Option.bind_some,
      if_pos hsum, hafter]
  · rw [hfinished, List.nil_append]
    have hkeys := hperm.map Prod.fst
    simpa [answers, Function.comp_def] using hkeys

/-- **Once the ring can fill up** the assertion fails: some lookups never come to their end. -/
theorem coroMultiLookup_fails (hempty : scheduler.head = scheduler.tail)
    (hstreams : scheduler.depth ≤ nStreams.toNat) (hlookups : scheduler.depth ≤ lookups.length)
    (hfuel : nStreams.toNat * (dataset.length + 1) < fuel) :
    ∃ counters, coroMultiLookup fuel dataset lookups scheduler nStreams =
        some (.assertionFailed counters) ∧
      counters.foundCount + counters.notFoundCount < lookups.length := by
  have hpos : 1 ≤ nStreams.toNat := by
    have := scheduler.depth_pos
    omega
  obtain ⟨s₁, done₁, queue₁, lost₁, hspawn, h₁⟩ :=
    (initial_spawned (searchProgram dataset) (dataset.length + 1) nStreams {}
      hempty).spawnMany hpos hfuel (answers_owed dataset lookups)
  have hanswers : (answers dataset lookups).length = lookups.length := List.length_map _
  rw [List.nil_append] at h₁
  obtain ⟨s₂, done₂, hrun₂, hout, hless⟩ := h₁.stuck hstreams (by rw [hanswers]; exact hlookups)
    hfuel
  obtain ⟨-, hsum, -⟩ := foldl_count done₂ {}
  have hout : s₂.out = done₂.foldl Counters.count {} := hout
  rw [← hout, Nat.zero_add, Nat.zero_add] at hsum
  rw [hanswers] at hless
  refine ⟨s₂.out, ?_, by omega⟩
  simp only [coroMultiLookup, hspawn, hrun₂, Option.bind_eq_bind, Option.bind_some]
  rw [if_neg (by omega)]

end

/-- **When the interleaved lookup agrees with the plain search.** For every dataset, every
list of keys and every number of streams from one on, over an empty scheduler of 256 slots:
every lookup comes to its end once, each is counted, and the result is the number of keys for
which the plain search returns true, if and only if the streams or the keys are fewer than
the slots of the scheduler. -/
theorem coro_multi_lookup_counts_iff (dataset lookups : List ℤ)
    (scheduler : StaticQueueScheduler) (hempty : scheduler.head = scheduler.tail)
    (hslots : scheduler.depth = 256) (nStreams : BitVec 64) (hpos : 1 ≤ nStreams.toNat)
    (fuel : ℕ) (hfuel : nStreams.toNat * (dataset.length + 1) < fuel) :
    (∃ counters result after, coroMultiLookup fuel dataset lookups scheduler nStreams =
        some (.returned counters result after) ∧
      counters.finished.Perm lookups ∧
      counters.foundCount + counters.notFoundCount = lookups.length ∧
      result = lookups.countP fun key =>
        vanillaBinarySearch fuel dataset 0 dataset.length key = some true) ↔
    nStreams.toNat < 256 ∨ lookups.length < 256 := by
  constructor
  case mp =>
    rintro ⟨counters, result, after, hcall, -⟩
    by_contra hhigh
    have hstreams : scheduler.depth ≤ nStreams.toNat := by omega
    have hlookups : scheduler.depth ≤ lookups.length := by omega
    obtain ⟨counters', hfail, -⟩ :=
      coroMultiLookup_fails dataset hempty hstreams hlookups hfuel
    rw [hfail] at hcall
    cases hcall
  case mpr =>
    intro hlow
    rw [← hslots] at hlow
    obtain ⟨counters, after, hcall, hperm, hsum, hfound⟩ :=
      coroMultiLookup_returns dataset hempty hpos hlow hfuel
    refine ⟨counters, _, after, hcall, hperm, hsum, hfound.trans ?_⟩
    have hvanilla : ∀ key, vanillaBinarySearch fuel dataset 0 dataset.length key =
        some (verdict dataset key { first := 0, len := dataset.length }) := by
      intro key
      refine vanillaBinarySearch_eq key (Nat.lt_of_le_of_lt ?_ hfuel)
      exact (Nat.le_succ _).trans (Nat.le_mul_of_pos_left _ hpos)
    simp only [answers, List.countP_map, hvanilla]
    exact List.countP_congr fun key _ => by simp

/-- More keys than streams, on an unsorted dataset. -/
theorem coro_multi_lookup_counts_iff_two_streams :
    (∃ counters result after, coroMultiLookup 11 [3, 1, 4, 6] [4, 1, 7]
        (RingBuffer.new 256 (by decide)) 2 = some (.returned counters result after) ∧
      counters.finished.Perm [4, 1, 7] ∧
      counters.foundCount + counters.notFoundCount = 3 ∧ result = 2) := by
  obtain ⟨counters, result, after, hcall, hperm, hsum, hresult⟩ :=
    (coro_multi_lookup_counts_iff [3, 1, 4, 6] [4, 1, 7] (RingBuffer.new 256 (by decide)) rfl
      List.length_replicate 2 (by decide) 11 (by decide)).mpr (Or.inl (by decide))
  exact ⟨counters, result, after, hcall, hperm, hsum, hresult.trans (by decide)⟩

/-- As many streams and keys as the scheduler has slots: the ring is full when the spawning is
over, it is taken for an empty one, and the assertion fails. -/
theorem full_ring_fails_assertion :
    ∃ counters, coroMultiLookup 513 [1] (List.replicate 256 1) (RingBuffer.new 256 (by decide))
        256 = some (.assertionFailed counters) ∧
      counters.foundCount + counters.notFoundCount < (List.replicate 256 (1 : ℤ)).length := by
  refine coroMultiLookup_fails [1] rfl ?_ ?_ (by decide)
  · exact (List.length_replicate (n := 256)).le
  · rw [List.length_replicate]
    exact (List.length_replicate (n := 256)).le

end Coroutines.BinarySearch
