import Coroutines.Map.Resize

/-!
# Adding an entry

`Map::insert` and `Map::update` add a new entry in two ways: as the first of an empty
bucket, or behind the last of its chain. Either way the entry ends up behind the chain
of its bucket, and the table stays well formed.
-/

namespace Coroutines.Map

open Links Loop
open Function (update_self update_of_ne)

variable {K V : Type} {hasher : K → Size} {m : Map K V} {nodes : List ℕ} {key : K}

/-- The entry `a` has been added behind the chain of the bucket `i` of its key, and both
counts have been raised. -/
structure Added (hasher : K → Size) (m : Map K V) (nodes : List ℕ) (key : K) (value : V)
    (a : ℕ) (heap : Heap (Entry K V)) (first : Option ℕ) : Prop where
  fresh : payload m.heap a = none
  payload : payload heap = Function.update (payload m.heap) a (some (key, value))
  rest : ∀ x, x ∉ m.chainOf hasher nodes (m.bucketIndexForKey hasher key) → x ≠ a →
    next heap x = next m.heap x
  chain : Chain (next heap) first
    (m.chainOf hasher nodes (m.bucketIndexForKey hasher key) ++ [a])

theorem Added.ne_of_mem {value : V} {a : ℕ} {heap : Heap (Entry K V)}
    {first : Option ℕ} (hadd : Added hasher m nodes key value a heap first)
    (h : m.WF hasher nodes) : ∀ x ∈ nodes, x ≠ a := by
  rintro x hx rfl
  obtain ⟨p, hp⟩ := h.stored x hx
  rw [hadd.fresh] at hp
  cases hp

/-- The table with the entry added, before the resize. -/
def withEntry (m : Map K V) (index : ℕ) (b : Bucket) (heap : Heap (Entry K V))
    (first : Option ℕ) : Map K V :=
  { m with
    heap := heap
    buckets := m.buckets.set index { first := first, nItems := b.nItems + 1 }
    nItems := m.nItems + 1 }

theorem toNat_succ {x : Size} {n : ℕ} (h : x.toNat = n) (hsmall : n + 1 < 2 ^ 64) :
    (x + 1).toNat = n + 1 := by
  rw [BitVec.toNat_add, h]
  exact Nat.mod_eq_of_lt hsmall

/-- **Adding an entry keeps the table well formed.** -/
theorem WF.withEntry (h : m.WF hasher nodes) {value : V} {b : Bucket} {a : ℕ}
    {heap : Heap (Entry K V)} {first : Option ℕ}
    (hb : m.buckets[m.bucketIndexForKey hasher key]? = some b)
    (habsent : ∀ x ∈ nodes, keyOf m.heap x ≠ some key)
    (hadd : Added hasher m nodes key value a heap first)
    (hsmall : nodes.length + 1 < 2 ^ 64) :
    (m.withEntry (m.bucketIndexForKey hasher key) b heap first).WF hasher (nodes ++ [a]) := by
  have hna : ∀ x ∈ nodes, x ≠ a := hadd.ne_of_mem h
  have hpay : ∀ x ∈ nodes, payload heap x = payload m.heap x := by
    intro x hx
    rw [hadd.payload, update_of_ne (hna x hx)]
  have hpaya : payload heap a = some (key, value) := by rw [hadd.payload, update_self]
  have hkey : ∀ x ∈ nodes, keyOf heap x = keyOf m.heap x := by
    intro x hx
    rw [keyOf, keyOf, hpay x hx]
  have hkeya : keyOf heap a = some key := keyOf_of_payload hpaya
  have hchain : ∀ j, chainAt (home hasher m.capacity heap) (nodes ++ [a]) j =
      m.chainOf hasher nodes j ++ if m.bucketIndexForKey hasher key = j then [a] else [] := by
    intro j
    rw [chainAt_append]
    congr 1
    · refine List.filter_congr fun x hx => ?_
      rw [home, home, hkey x hx]
    · have hhome : home hasher m.capacity heap a = some (m.bucketIndexForKey hasher key) :=
        home_of_key hkeya
      by_cases hj : m.bucketIndexForKey hasher key = j
      · simp [chainAt, hhome, hj]
      · simp [chainAt, hhome, hj]
  have hlen : (m.chainOf hasher nodes (m.bucketIndexForKey hasher key)).length ≤
      nodes.length := List.length_filter_le _ _
  refine ⟨?_, h.pos, ?_, ?_, ?_, ?_⟩
  · show (m.buckets.set _ _).length = m.capacity.toNat
    rw [List.length_set]
    exact h.size
  · intro x hx
    rcases List.mem_append.mp hx with hx | hx
    · obtain ⟨p, hp⟩ := h.stored x hx
      exact ⟨p, (hpay x hx).trans hp⟩
    · rw [List.mem_singleton.mp hx]
      exact ⟨_, hpaya⟩
  · show ((nodes ++ [a]).map (keyOf heap)).Nodup
    rw [List.map_append, List.map_congr_left hkey, List.nodup_append]
    refine ⟨h.distinct, List.nodup_singleton _, ?_⟩
    intro k hk k' hk'
    obtain ⟨x, hx, rfl⟩ := List.mem_map.mp hk
    rw [List.map_singleton, List.mem_singleton] at hk'
    rw [hk', hkeya]
    exact habsent x hx
  · intro j c hc
    show c.Holds heap (chainAt (home hasher m.capacity heap) (nodes ++ [a]) j)
    rw [hchain j]
    have hc : (m.buckets.set (m.bucketIndexForKey hasher key)
        { first := first, nItems := b.nItems + 1 })[j]? = some c := hc
    by_cases hj : m.bucketIndexForKey hasher key = j
    · subst hj
      rw [List.getElem?_set_self (List.getElem?_eq_some_iff.mp hb).1] at hc
      cases hc
      rw [if_pos rfl]
      refine ⟨hadd.chain, ?_⟩
      rw [List.length_append]
      exact toNat_succ (h.holds _ b hb).nItems (by omega)
    · rw [List.getElem?_set_ne hj] at hc
      have hold := h.holds j c hc
      rw [if_neg hj, List.append_nil]
      refine ⟨hold.chain.congr fun x hx => hadd.rest x (fun hxi => ?_)
        (hna x (mem_chainAt.mp hx).1), hold.nItems⟩
      have hxj := (mem_chainAt.mp hx).2
      rw [(mem_chainAt.mp hxi).2] at hxj
      exact hj (Option.some.inj hxj)
  · show (m.nItems + 1).toNat = (nodes ++ [a]).length
    rw [List.length_append]
    exact toNat_succ h.count hsmall

/-! ## The two ways -/

/-- What the result of an insertion refers to. -/
def argResult : InsertKVResult where
  key := .argKey
  value := .argValue
  inserted := true

theorem insertFirst_eq (fl : Rounding) (value : V) {b : Bucket}
    (hempty : m.chainOf hasher nodes (m.bucketIndexForKey hasher key) = []) :
    ∃ a heap, Added hasher m nodes key value a heap (some a) ∧
      m.insertFirst fl hasher (m.bucketIndexForKey hasher key) b key value =
        ((m.withEntry (m.bucketIndexForKey hasher key) b heap (some a)
          ).performResizeIfRequired fl hasher).map fun m' => (m', argResult) := by
  obtain ⟨a, heap, halloc, hfresh, hnext, hpay⟩ := alloc_spec m.heap key value
  refine ⟨a, heap, ⟨hfresh, hpay, fun x _ hxa => ?_, ?_⟩, ?_⟩
  · rw [hnext, update_of_ne hxa]
  · rw [hempty, hnext]
    exact ⟨rfl, update_self _ _ _⟩
  · rw [insertFirst, halloc, Option.map_eq_bind]
    rfl

theorem insertLast_eq (h : m.WF hasher nodes) (fl : Rounding) (value : V) {b : Bucket}
    {z : ℕ} (hb : m.buckets[m.bucketIndexForKey hasher key]? = some b)
    (hlast : (m.chainOf hasher nodes (m.bucketIndexForKey hasher key)).getLast? = some z) :
    ∃ a heap, Added hasher m nodes key value a heap b.first ∧
      m.insertLast fl hasher (m.bucketIndexForKey hasher key) b z key value =
        ((m.withEntry (m.bucketIndexForKey hasher key) b heap b.first
          ).performResizeIfRequired fl hasher).map fun m' => (m', argResult) := by
  obtain ⟨a, heap₁, halloc, hfresh, hnext₁, hpay₁⟩ := alloc_spec m.heap key value
  have hzl := List.mem_of_getLast? hlast
  obtain ⟨p, hp⟩ := h.chain_stored _ z hzl
  have hal : ∀ x, Stored m.heap x → x ≠ a := by
    rintro x ⟨q, hq⟩ rfl
    rw [hfresh] at hq
    cases hq
  have hz : Stored heap₁ z := by
    rw [Stored, hpay₁, update_of_ne (hal z ⟨p, hp⟩)]
    exact ⟨p, hp⟩
  obtain ⟨heap₂, hset, hnext₂, hpay₂⟩ := setNext_spec hz (some a)
  have hmem : a ∉ m.chainOf hasher nodes (m.bucketIndexForKey hasher key) :=
    fun ha => hal a (h.chain_stored _ a ha) rfl
  refine ⟨a, heap₂, ⟨hfresh, hpay₂.trans hpay₁, fun x hx hxa => ?_, ?_⟩, ?_⟩
  · have hxz : x ≠ z := fun hxz => hx (hxz ▸ hzl)
    rw [hnext₂, update_of_ne hxz, hnext₁, update_of_ne hxa]
  · rw [hnext₂]
    refine Chain.snoc ?_ (h.chain_nodup _) hlast ?_ hmem
    · rw [hnext₁]
      exact (h.holds _ b hb).chain.update hmem
    · rw [hnext₁, update_self]
  · rw [insertLast, halloc, Option.map_eq_bind]
    simp only [hset]
    rfl

end Coroutines.Map
