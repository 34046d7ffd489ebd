import Coroutines.Map.Multilookup
import Coroutines.Throttler.Census

/-!
# The streams of an interleaved lookup

`Map::interleaved_multilookup` resumption by resumption. A miss may complete a task the first
time it is resumed, and a hit after any number of hops; either way the number of streams bounds
the lookups in flight.
-/

namespace Coroutines.Map

open Throttler Transition

variable {K V : Type} [DecidableEq K]

def interleavedSystem (hasher : K → Size) (m : Map K V) (keys : List K)
    (scheduler : StaticQueueScheduler) (nStreams : Size) :
    System (Census.State (LookupTask K) (List LookupKVResult)) Unit :=
  Census.system (lookupProgram hasher m)
    (Census.initial scheduler nStreams [] (keys.map fun key => { key := key, point := .start }))

/-- **The limit and the lookups in flight make up the number of streams**, at every point of an
interleaved lookup, for every reachable map, every list of keys and every number of streams from
one on and below the depth of an empty scheduler. So the lookups in flight never exceed it, the
limit does not wrap, and each chain that `spawn` resumed came back with one task completed. On a
table that has a bucket every chain does come back: every point leads to the state in which
the lookup ends. -/
theorem streams_balanced [ValueType V] (fl : Rounding) (hasher : K → Size) (m : Map K V)
    (hm : Reachable fl hasher m) (keys : List K) (scheduler : StaticQueueScheduler)
    (hempty : scheduler.head = scheduler.tail) (nStreams : Size) (hlow : 1 ≤ nStreams.toNat)
    (hdepth : nStreams.toNat < scheduler.depth) :
    (∀ s, (interleavedSystem hasher m keys scheduler nStreams).Reachable s →
      s.Balanced nStreams.toNat) ∧
    (m.buckets ≠ [] → ∀ fuel, nStreams.toNat * (walkFuel m.heap + 1) < fuel →
      ∃ exec, m.interleavedMultilookup fuel hasher keys scheduler nStreams = some exec ∧
        ∀ s, (interleavedSystem hasher m keys scheduler nStreams).Reachable s →
          ∃ t, (interleavedSystem hasher m keys scheduler nStreams).Leads s t ∧
            t.exec = exec ∧ t.place = .done) := by
  refine ⟨fun s hs => Census.reachable_balanced hempty hlow hdepth hs, fun hne fuel hfuel => ?_⟩
  obtain ⟨nodes, finmap, hrep⟩ := hm.represents.resolve_right hne
  obtain ⟨expected, hseq⟩ : ∃ expected, m.sequentialMultilookup hasher keys = some expected := by
    apply Loop.mapM_total
    intro key _
    obtain ⟨r, hr, -⟩ := hrep.lookup key
    exact ⟨r, hr⟩
  obtain ⟨exec, hexec, -⟩ := interleaved_of_sequential hseq hempty hlow hdepth hfuel
  exact ⟨exec, hexec, fun s hs => Census.reachable_leads_to_done hexec hs⟩

/-- A table with one key. -/
def oneKey : Option (Map ℕ ℕ) :=
  (create 2).bind fun m => (m.insert .exact (fun _ => 7) 1 10).map Prod.fst

/-- Two hits and a miss of that table over two streams: the third `spawn` resumes the first task,
which hops to the second and back before it completes. -/
theorem streams_balanced_two_streams :
    ∃ (m : Map ℕ ℕ) (s : _), oneKey = some m ∧
      (interleavedSystem (fun _ => 7) m [1, 2, 1] (RingBuffer.new 3 (by decide)) 2).Reachable s ∧
        s.returns = [1] ∧ s.Balanced 2 ∧
        ∃ t, (interleavedSystem (fun _ => 7) m [1, 2, 1] (RingBuffer.new 3 (by decide)) 2
            ).Leads s t ∧ t.place = .done := by
  let start : Census.State (LookupTask ℕ) (List LookupKVResult) :=
    Census.initial (RingBuffer.new 3 (by decide)) 2 []
      ([1, 2, 1].map fun key => { key := key, point := .start })
  have hrun : (oneKey.bind fun m => ((interleavedSystem (fun _ => 7) m [1, 2, 1]
      (RingBuffer.new 3 (by decide)) 2).run start (List.replicate 8 ())).map fun s =>
        (s.returns, m.buckets.length)) = some ([1], 2) := by decide +kernel
  obtain ⟨m, hm, hmap⟩ := Option.bind_eq_some_iff.mp hrun
  obtain ⟨s, hs, hpair⟩ := Option.map_eq_some_iff.mp hmap
  obtain ⟨hreturns, hbuckets⟩ := Prod.mk.inj hpair
  obtain ⟨m₀, hm₀, hrest⟩ := Option.bind_eq_some_iff.mp hm
  obtain ⟨⟨m₁, r⟩, hinsert, rfl⟩ := Option.map_eq_some_iff.mp hrest
  have hfew : m₀.nItems.toNat < 2 ^ 60 := by
    rw [← Option.some.inj hm₀]
    decide
  obtain ⟨hbalanced, hends⟩ := streams_balanced .exact (fun _ => 7) m₁
    (.insert 1 10 (.create hm₀) hfew hinsert) [1, 2, 1] (RingBuffer.new 3 (by decide)) rfl 2
    (by decide) (by decide)
  have hreach := System.Reachable.run (.init rfl) _ hs
  obtain ⟨exec, -, hleads⟩ := hends (List.ne_nil_of_length_pos (by rw [hbuckets]; decide)) _
    (Nat.lt_succ_self _)
  obtain ⟨t, ht, -, hdone⟩ := hleads s hreach
  exact ⟨m₁, s, hm, hreach, hreturns, hbalanced s hreach, t, ht, hdone⟩

end Coroutines.Map
