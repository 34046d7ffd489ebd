import Coroutines.Map.Refinement
import Coroutines.Throttler

/-!
# Interleaved lookups

`Map::sequential_multilookup` looks the keys up one after the other.
`Map::interleaved_multilookup` spawns a coroutine for each key, and lets the coroutines
take turns at every entry they are about to read. Both write one result for each key.
-/

namespace Coroutines.Map

open Loop Throttler

variable {K V : Type}

/-! ## The model -/

/-- Where a `lookup_task` is suspended. -/
inductive Point
  | start                              -- at its initial suspend
  | prefetched (address : Option ℕ)    -- awaiting the prefetch of an entry
deriving DecidableEq

structure LookupTask (K : Type) where
  key : K
  point : Point

variable [DecidableEq K]

def sequentialMultilookup (hasher : K → Size) (m : Map K V) (keys : List K) :
    Option (List LookupKVResult) :=
  keys.mapM (m.lookup hasher)

/-- `Map::lookup_task`, from one suspension to the next or to its end. -/
def lookupTask (hasher : K → Size) (m : Map K V) (task : LookupTask K) :
    Option (LookupTask K ⊕ LookupKVResult) :=
  match task.point with
  | .start => do
      let bucket ← m.buckets[m.bucketIndexForKey hasher task.key]?
      if bucket.nItems = 0 then some (.inr {})
      else some (.inl { task with point := .prefetched bucket.first })
  | .prefetched address => do
      let entry ← address
      let e ← m.heap.cells entry
      if task.key = e.key then some (.inr (.ofEntry entry))
      else
        match e.next with
        | none => some (.inr {})
        | some next => some (.inl { task with point := .prefetched (some next) })

/-- The lookup tasks of a multilookup, which append their results. -/
def lookupProgram (hasher : K → Size) (m : Map K V) :
    Program (LookupTask K) LookupKVResult (List LookupKVResult) where
  resume := lookupTask hasher m
  emit results r := results ++ [r]

/-- The results are appended in the order in which the tasks complete. -/
theorem foldl_emit (hasher : K → Size) (m : Map K V) (results done : List LookupKVResult) :
    done.foldl (lookupProgram hasher m).emit results = results ++ done := by
  apply List.foldl_append_eq_append.trans
  rw [← List.flatMap_def, List.flatMap_singleton']

/-- The field `out` of the final state is the list of results written. -/
def interleavedMultilookup (fuel : ℕ) (hasher : K → Size) (m : Map K V) (keys : List K)
    (scheduler : StaticQueueScheduler) (nStreams : Size) :
    Option (Exec (LookupTask K) (List LookupKVResult)) :=
  spawnAll (lookupProgram hasher m) fuel scheduler nStreams []
    (keys.map fun key => { key := key, point := .start })

/-- The maps that insertions and updates lead to. An entry takes at least 16 bytes, so
there are never as many as `2 ^ 60` of them. -/
inductive Reachable [ValueType V] (fl : Rounding) (hasher : K → Size) : Map K V → Prop
  | create {maxCapacity : Size} {m : Map K V} : create maxCapacity = some m →
      Reachable fl hasher m
  | insert {m m' : Map K V} {r : InsertKVResult} (key : K) (value : V) :
      Reachable fl hasher m → m.nItems.toNat < 2 ^ 60 →
      m.insert fl hasher key value = some (m', r) → Reachable fl hasher m'
  | update {m m' : Map K V} {r : InsertKVResult} (key : K) (value : V) :
      Reachable fl hasher m → m.nItems.toNat < 2 ^ 60 →
      m.update fl hasher key value = some (m', r) → Reachable fl hasher m'

/-! ## A task alone is a lookup -/

/-- What a lookup returns where the search of the chain ends. -/
def Found.result : Found → LookupKVResult
  | .hit entry => .ofEntry entry
  | .miss _ => {}

/-- From an entry on, the task walks the chain as the search does. -/
theorem iterate_lookupTask {hasher : K → Size} {m : Map K V} {key : K} {n entry : ℕ}
    {found : Found} (h : iterate (searchBody m.heap key) n entry = some found) :
    iterate (lookupTask hasher m) n { key := key, point := .prefetched (some entry) } =
      some found.result := by
  induction n generalizing entry with
  | zero => cases h
  | succ n ih =>
      obtain ⟨x, hx, hrest⟩ := Option.bind_eq_some_iff.mp h
      obtain ⟨e, he, hbody⟩ := Option.bind_eq_some_iff.mp hx
      by_cases hkey : key = e.key
      · rw [if_pos hkey] at hbody
        cases hbody
        obtain rfl := Option.some.inj hrest
        exact iterate_exit n (by simp [lookupTask, he, hkey, Found.result])
      · rw [if_neg hkey] at hbody
        rcases hnext : e.next with _ | next
        · rw [hnext] at hbody
          cases hbody
          obtain rfl := Option.some.inj hrest
          exact iterate_exit n (by simp [lookupTask, he, hkey, hnext, Found.result])
        · rw [hnext] at hbody
          cases hbody
          have hstep : lookupTask hasher m
              { key := key, point := .prefetched (some entry) } =
              some (.inl { key := key, point := .prefetched (some next) }) := by
            simp [lookupTask, he, hkey, hnext]
          rw [iterate_next n hstep]
          exact ih hrest

/-- **A task that is resumed until its end** delivers what `lookup` returns. -/
theorem iterate_lookupTask_start {hasher : K → Size} {m : Map K V} {key : K}
    {r : LookupKVResult} (h : m.lookup hasher key = some r) :
    iterate (lookupTask hasher m) (walkFuel m.heap + 1) { key := key, point := .start } =
      some r := by
  obtain ⟨b, hb, hrest⟩ := Option.bind_eq_some_iff.mp h
  by_cases hzero : b.nItems = 0
  · rw [if_pos hzero] at hrest
    apply iterate_exit _
    simp only [lookupTask, hb, Option.bind_eq_bind, Option.bind_some, if_pos hzero]
    rw [← Option.some.inj hrest]
  · rw [if_neg hzero] at hrest
    obtain ⟨found, hfound, hresult⟩ := Option.bind_eq_some_iff.mp hrest
    obtain ⟨first, hfirst, hsearch⟩ := Option.bind_eq_some_iff.mp hfound
    have hstep : lookupTask hasher m { key := key, point := .start } =
        some (.inl { key := key, point := .prefetched (some first) }) := by
      simp only [lookupTask, hb, Option.bind_eq_bind, Option.bind_some, if_neg hzero, hfirst]
    have hr : found.result = r := by
      rcases found with entry | last
      · exact Option.some.inj hresult
      · exact Option.some.inj hresult
    rw [iterate_next _ hstep, iterate_lookupTask hsearch, hr]

/-! ## The same results in some order -/

/-- **Where the plain loop is defined, the interleaved one agrees with it.** -/
theorem interleaved_of_sequential {hasher : K → Size} {m : Map K V} {keys : List K}
    {expected : List LookupKVResult} {scheduler : StaticQueueScheduler} {nStreams : Size}
    {fuel : ℕ} (hseq : m.sequentialMultilookup hasher keys = some expected)
    (hempty : scheduler.head = scheduler.tail) (hlow : 1 ≤ nStreams.toNat)
    (hdepth : nStreams.toNat < scheduler.depth)
    (hfuel : nStreams.toNat * (walkFuel m.heap + 1) < fuel) :
    ∃ s, m.interleavedMultilookup fuel hasher keys scheduler nStreams = some s ∧
      s.out.Perm expected := by
  have hruns : List.Forall₂ (fun frame r =>
      iterate (lookupProgram hasher m).resume (walkFuel m.heap + 1) frame = some r)
      (keys.map fun key => { key := key, point := .start }) expected := by
    refine List.forall₂_map_left_iff.mpr ((mapM_forall₂ hseq).imp fun key r hr => ?_)
    exact iterate_lookupTask_start hr
  obtain ⟨s, done, hs, hout, hperm⟩ :=
    spawnAll_spec (lookupProgram hasher m) [] hempty hlow hdepth hruns hfuel
  refine ⟨s, hs, ?_⟩
  have hdone : s.out = done := hout.trans (foldl_emit hasher m [] done)
  rw [hdone]
  exact hperm

/-- A table that is well formed is so after every insertion that returns. -/
theorem Represents.of_insert {fl : Rounding} {hasher : K → Size} {m m' : Map K V}
    {nodes : List ℕ} {s : Finmap fun _ : K => V} {key : K} {value : V} {r : InsertKVResult}
    (h : m.Represents hasher nodes s) (hsmall : m.nItems.toNat < 2 ^ 60)
    (hm' : m.insert fl hasher key value = some (m', r)) :
    ∃ nodes' s', m'.Represents hasher nodes' s' := by
  rw [h.wf.count] at hsmall
  obtain ⟨m₁, r₁, nodes₁, hm₁, -, hrep₁⟩ := h.insert fl key value hsmall
  rw [hm'] at hm₁
  cases hm₁
  exact ⟨nodes₁, _, hrep₁⟩

theorem Represents.of_update [ValueType V] {fl : Rounding} {hasher : K → Size} {m m' : Map K V}
    {nodes : List ℕ} {s : Finmap fun _ : K => V} {key : K} {value : V} {r : InsertKVResult}
    (h : m.Represents hasher nodes s) (hsmall : m.nItems.toNat < 2 ^ 60)
    (hm' : m.update fl hasher key value = some (m', r)) :
    ∃ nodes' s', m'.Represents hasher nodes' s' := by
  rw [h.wf.count] at hsmall
  obtain ⟨m₁, r₁, nodes₁, hm₁, -, hrep₁⟩ :=
    h.update (h.defined_of_update hm') fl value hsmall
  rw [hm'] at hm₁
  cases hm₁
  exact ⟨nodes₁, _, hrep₁⟩

/-- A reachable table is well formed, or has no buckets at all: the constructor makes such
a table when the maximum capacity is one, and nothing can be inserted into it. -/
theorem Reachable.represents [ValueType V] {fl : Rounding} {hasher : K → Size} {m : Map K V}
    (h : Reachable fl hasher m) :
    (∃ nodes s, m.Represents hasher nodes s) ∨ m.buckets = [] := by
  have hbucket : ∀ m : Map K V, m.buckets = [] → ∀ i : ℕ, m.buckets[i]? = none := by
    intro m hm i
    rw [hm, List.getElem?_nil]
  induction h with
  | @create maxCapacity m hm =>
      rcases Nat.lt_or_ge maxCapacity.toNat 2 with hlt | hge
      · right
        have hone : maxCapacity = 0 ∨ maxCapacity = 1 := by
          rcases Nat.lt_or_ge maxCapacity.toNat 1 with h0 | h1
          · exact Or.inl (BitVec.eq_of_toNat_eq (by show maxCapacity.toNat = 0; omega))
          · exact Or.inr (BitVec.eq_of_toNat_eq (by show maxCapacity.toNat = 1; omega))
        rcases hone with rfl | rfl
        · cases hm
        · rw [← Option.some.inj hm]
          rfl
      · left
        obtain ⟨m', hm', hrep⟩ := create_represents (V := V) hasher hge
        rw [hm] at hm'
        cases hm'
        exact ⟨[], ∅, hrep⟩
  | @insert m m' r key value _ hsmall hm' ih =>
      rcases ih with ⟨nodes, s, hrep⟩ | hnil
      · exact Or.inl (hrep.of_insert hsmall hm')
      · rw [Map.insert, hbucket m hnil] at hm'
        cases hm'
  | @update m m' r key value _ hsmall hm' ih =>
      rcases ih with ⟨nodes, s, hrep⟩ | hnil
      · exact Or.inl (hrep.of_update hsmall hm')
      · rw [Map.update, hbucket m hnil] at hm'
        cases hm'

/-- **Interleaved lookups are the sequential ones in some order.** For every reachable map
and every list of keys: on a table that has a bucket the plain loop is defined, with one
result for each key; and wherever it is, the interleaved lookup ends, for every number of
streams from one on and below the depth of an empty scheduler, with the same results. -/
theorem interleaved_perm_sequential [ValueType V] (fl : Rounding) (hasher : K → Size) (m : Map K V)
    (hm : Reachable fl hasher m) (keys : List K) (scheduler : StaticQueueScheduler)
    (hempty : scheduler.head = scheduler.tail) (nStreams : Size) (hlow : 1 ≤ nStreams.toNat)
    (hdepth : nStreams.toNat < scheduler.depth) (fuel : ℕ)
    (hfuel : nStreams.toNat * (walkFuel m.heap + 1) < fuel) :
    (m.buckets ≠ [] → ∃ expected, m.sequentialMultilookup hasher keys = some expected) ∧
    ∀ expected, m.sequentialMultilookup hasher keys = some expected →
      expected.length = keys.length ∧
      ∃ s, m.interleavedMultilookup fuel hasher keys scheduler nStreams = some s ∧
        s.out.Perm expected := by
  refine ⟨fun hne => ?_, fun expected hseq => ⟨?_, ?_⟩⟩
  · rcases hm.represents with ⟨nodes, s, hrep⟩ | hnil
    · refine mapM_total fun key _ => ?_
      obtain ⟨r, hr, -⟩ := hrep.lookup key
      exact ⟨r, hr⟩
    · exact absurd hnil hne
  · exact (mapM_forall₂ hseq).length_eq.symm
  · exact interleaved_of_sequential hseq hempty hlow hdepth hfuel

/-- Three lookups over two streams, one key repeated and one absent. -/
theorem interleaved_perm_sequential_two_streams :
    ∃ (m : Map ℕ ℕ) (expected : List LookupKVResult) (s : _),
      m.sequentialMultilookup (fun _ => 7) [1, 2, 1] = some expected ∧
      m.interleavedMultilookup (2 * (walkFuel m.heap + 1) + 1) (fun _ => 7) [1, 2, 1]
        (RingBuffer.new 3 (by decide)) 2 = some s ∧
      expected.length = 3 ∧ s.out.Perm expected := by
  obtain ⟨m, hm, hrep⟩ := create_represents (V := ℕ) (fun _ : ℕ => 7)
    (show 2 ≤ (2 : Size).toNat by decide)
  obtain ⟨m', r, nodes, hins, -, hrep'⟩ := hrep.insert .binary64 1 10 (by decide)
  have hreach : Reachable .binary64 (fun _ => 7) m' :=
    .insert 1 10 (.create hm) (by rw [hrep.wf.count]; decide) hins
  have hbuckets : m'.buckets ≠ [] := by
    intro hnil
    have hpos := hrep'.wf.pos
    rw [← hrep'.wf.size, hnil] at hpos
    exact Nat.lt_irrefl 0 hpos
  obtain ⟨hdefined, hagree⟩ := interleaved_perm_sequential .binary64 (fun _ => 7) m' hreach
    [1, 2, 1] (RingBuffer.new 3 (by decide)) rfl 2 (by decide) (by decide)
    (2 * (walkFuel m'.heap + 1) + 1) (Nat.lt_succ_self _)
  obtain ⟨expected, hseq⟩ := hdefined hbuckets
  obtain ⟨hlen, s, hs, hperm⟩ := hagree expected hseq
  exact ⟨m', expected, s, hseq, hs, hlen, hperm⟩

end Coroutines.Map
