import Coroutines.Map.Basic
import Coroutines.Lib.Links
import Mathlib.Data.BitVec

/-!
# Well-formed tables

A table is described by the list of its entries, in such an order that the chain of each
bucket is the part of the list that belongs to it. `WF` says that the links, the counts
and the capacity fit that list; it is what every operation keeps. This module has the
walks that read the table.
-/

namespace Coroutines.Map

open Links Loop
open Function (update_self update_of_ne)

variable {K V : Type}

/-! ## What is at an address -/

def next (heap : Heap (Entry K V)) (a : ℕ) : Option ℕ :=
  (heap.cells a).bind Entry.next

/-- The key and the value of the entry at `a`. -/
def payload (heap : Heap (Entry K V)) (a : ℕ) : Option (K × V) :=
  (heap.cells a).map fun e => (e.key, e.value)

def keyOf (heap : Heap (Entry K V)) (a : ℕ) : Option K :=
  (payload heap a).map Prod.fst

theorem keyOf_of_payload {heap : Heap (Entry K V)} {a : ℕ} {key : K} {value : V}
    (h : payload heap a = some (key, value)) : keyOf heap a = some key := by
  rw [keyOf, h]
  rfl

theorem keyOf_eq_some {heap : Heap (Entry K V)} {a : ℕ} {key : K}
    (h : keyOf heap a = some key) : ∃ value, payload heap a = some (key, value) := by
  obtain ⟨⟨k, v⟩, hp, rfl⟩ := Option.map_eq_some_iff.mp h
  exact ⟨v, hp⟩

/-- Some entry lives at `a`. -/
def Stored (heap : Heap (Entry K V)) (a : ℕ) : Prop :=
  ∃ p, payload heap a = some p

theorem payload_of_cell {heap : Heap (Entry K V)} {a : ℕ} {e : Entry K V}
    (he : heap.cells a = some e) : payload heap a = some (e.key, e.value) := by
  rw [payload, he]
  rfl

theorem Stored.cell {heap : Heap (Entry K V)} {a : ℕ} (h : Stored heap a) :
    ∃ e, heap.cells a = some e ∧ next heap a = e.next ∧ keyOf heap a = some e.key := by
  obtain ⟨p, hp⟩ := h
  obtain ⟨e, he, -⟩ := Option.map_eq_some_iff.mp hp
  refine ⟨e, he, ?_, ?_⟩
  · rw [next, he]
    rfl
  · rw [keyOf, payload_of_cell he]
    rfl

theorem next_of_cells {heap heap' : Heap (Entry K V)} {a : ℕ} {e : Entry K V}
    (h : heap'.cells = Function.update heap.cells a (some e)) :
    next heap' = Function.update (next heap) a e.next := by
  funext b
  rw [next, h]
  by_cases hb : b = a
  · rw [hb, update_self, update_self]
    rfl
  · rw [update_of_ne hb, update_of_ne hb]
    rfl

theorem payload_of_cells {heap heap' : Heap (Entry K V)} {a : ℕ} {e : Entry K V}
    (h : heap'.cells = Function.update heap.cells a (some e)) :
    payload heap' = Function.update (payload heap) a (some (e.key, e.value)) := by
  funext b
  rw [payload, h]
  by_cases hb : b = a
  · rw [hb, update_self, update_self]
    rfl
  · rw [update_of_ne hb, update_of_ne hb]
    rfl

/-- Rewriting a link changes that link, and nothing else. -/
theorem setNext_spec {heap : Heap (Entry K V)} {a : ℕ} (h : Stored heap a) (q : Option ℕ) :
    ∃ heap', setNext heap a q = some heap' ∧
      next heap' = Function.update (next heap) a q ∧ payload heap' = payload heap := by
  obtain ⟨e, he, -, -⟩ := h.cell
  obtain ⟨heap', hmod, hcells, -⟩ :=
    Heap.modify_eq (fun e : Entry K V => { e with next := q }) he
  refine ⟨heap', hmod, next_of_cells hcells, ?_⟩
  rw [payload_of_cells hcells, ← payload_of_cell he, Function.update_eq_self]

/-- Overwriting a value changes that value, and nothing else. -/
theorem setValue_spec {heap : Heap (Entry K V)} {a : ℕ} {k : K} (hk : keyOf heap a = some k)
    (v : V) :
    ∃ heap', heap.modify a (fun e => { e with value := v }) = some heap' ∧
      next heap' = next heap ∧
      payload heap' = Function.update (payload heap) a (some (k, v)) := by
  obtain ⟨p, hp, -⟩ := Option.map_eq_some_iff.mp hk
  obtain ⟨e, he, hnext, hkey⟩ := Stored.cell ⟨p, hp⟩
  obtain rfl : e.key = k := by
    rw [hkey] at hk
    exact Option.some.inj hk
  obtain ⟨heap', hmod, hcells, -⟩ :=
    Heap.modify_eq (fun e : Entry K V => { e with value := v }) he
  refine ⟨heap', hmod, ?_, payload_of_cells hcells⟩
  rw [next_of_cells hcells, ← hnext, Function.update_eq_self]

/-- A new entry is at an address where nothing lived. -/
theorem alloc_spec (heap : Heap (Entry K V)) (k : K) (v : V) :
    ∃ a heap', heap.alloc { next := none, key := k, value := v } = (a, heap') ∧
      payload heap a = none ∧ next heap' = Function.update (next heap) a none ∧
      payload heap' = Function.update (payload heap) a (some (k, v)) := by
  refine ⟨_, _, rfl, ?_, next_of_cells (e := ⟨none, k, v⟩) rfl,
    payload_of_cells (e := ⟨none, k, v⟩) rfl⟩
  rw [payload, heap.unused heap.fresh (Nat.le_refl _)]
  rfl

theorem next_free (heap : Heap (Entry K V)) (a : ℕ) :
    next (heap.free a) = Function.update (next heap) a none := by
  funext b
  by_cases hb : b = a
  · simp [next, Heap.free, hb]
  · simp [next, Heap.free, hb]

theorem payload_free (heap : Heap (Entry K V)) (a : ℕ) :
    payload (heap.free a) = Function.update (payload heap) a none := by
  funext b
  by_cases hb : b = a
  · simp [payload, Heap.free, hb]
  · simp [payload, Heap.free, hb]

/-- A list of distinct entries is within the fuel of a walk. -/
theorem length_lt_walkFuel {heap : Heap (Entry K V)} {l : List ℕ} (hnd : l.Nodup)
    (hl : ∀ a ∈ l, Stored heap a) : l.length < walkFuel heap := by
  refine Nat.lt_succ_of_le (Heap.length_le_fresh hnd fun a ha => ?_)
  obtain ⟨e, he, -⟩ := (hl a ha).cell
  exact ⟨e, he⟩

/-! ## Walking along a chain -/

/-- The walk to the end of a chain stops at its last entry. -/
theorem iterate_endBody {heap : Heap (Entry K V)} {a fuel : ℕ} {l : List ℕ}
    (hc : Chain (next heap) (some a) l) (hl : ∀ b ∈ l, Stored heap b)
    (hfuel : l.length < fuel) :
    ∃ z, iterate (endBody heap) fuel a = some z ∧ l.getLast? = some z := by
  induction l generalizing a fuel with
  | nil => cases hc
  | cons b l ih =>
      obtain ⟨hab, hrest⟩ := hc
      obtain rfl := Option.some.inj hab
      obtain ⟨fuel, rfl⟩ : ∃ n, fuel = n + 1 := ⟨fuel - 1, by omega⟩
      obtain ⟨e, he, hnext, -⟩ := (hl a List.mem_cons_self).cell
      rw [hnext] at hrest
      rcases hn : e.next with _ | c
      · rw [hn, chain_none] at hrest
        subst hrest
        exact ⟨a, iterate_exit fuel (by simp [endBody, he, hn]), rfl⟩
      · rw [hn] at hrest
        have hbody : endBody heap a = some (.inl c) := by simp [endBody, he, hn]
        rw [iterate_next fuel hbody]
        obtain ⟨z, hz, hlast⟩ := ih hrest (fun b hb => hl b (List.mem_cons_of_mem _ hb))
          (Nat.lt_of_succ_lt_succ hfuel)
        exact ⟨z, hz, by rw [List.getLast?_cons, hlast]; rfl⟩

/-! ## The table -/

theorem bucketIndex_lt {hasher : K → Size} {capacity : Size} (hpos : 0 < capacity.toNat)
    (key : K) : bucketIndex hasher capacity key < capacity.toNat := by
  have hle : bucketIndex hasher capacity key ≤ (capacity - 1).toNat := by
    rw [bucketIndex, BitVec.toNat_and]
    exact Nat.and_le_right
  have hpred : (capacity - 1).toNat = capacity.toNat - 1 := by
    rw [BitVec.toNat_sub_of_le (by rw [BitVec.le_def]; exact hpos)]
    rfl
  omega

/-- The bucket an entry belongs to. -/
def home (hasher : K → Size) (capacity : Size) (heap : Heap (Entry K V)) (a : ℕ) :
    Option ℕ :=
  (keyOf heap a).map (bucketIndex hasher capacity)

/-- The part of `nodes` that belongs to the bucket `i`. -/
def chainAt (home : ℕ → Option ℕ) (nodes : List ℕ) (i : ℕ) : List ℕ :=
  nodes.filter fun a => home a = some i

/-- The chain of the bucket `i` of a table. -/
abbrev chainOf (hasher : K → Size) (m : Map K V) (nodes : List ℕ) (i : ℕ) : List ℕ :=
  chainAt (home hasher m.capacity m.heap) nodes i

/-- The bucket is the head of the chain `l`. -/
structure Bucket.Holds (heap : Heap (Entry K V)) (b : Bucket) (l : List ℕ) : Prop where
  chain : Chain (next heap) b.first l
  nItems : b.nItems.toNat = l.length

/-- `nodes` lists the entries of the table, the chain of each bucket in its order. -/
structure WF (hasher : K → Size) (m : Map K V) (nodes : List ℕ) : Prop where
  size : m.buckets.length = m.capacity.toNat
  pos : 0 < m.capacity.toNat
  stored : ∀ a ∈ nodes, Stored m.heap a
  distinct : (nodes.map (keyOf m.heap)).Nodup
  holds : ∀ i (b : Bucket), m.buckets[i]? = some b →
    b.Holds m.heap (m.chainOf hasher nodes i)
  count : m.nItems.toNat = nodes.length

theorem mem_chainAt {home : ℕ → Option ℕ} {nodes : List ℕ} {i a : ℕ} :
    a ∈ chainAt home nodes i ↔ a ∈ nodes ∧ home a = some i := by
  simp [chainAt]

theorem home_of_key {hasher : K → Size} {capacity : Size} {heap : Heap (Entry K V)} {a : ℕ}
    {key : K} (h : keyOf heap a = some key) :
    home hasher capacity heap a = some (bucketIndex hasher capacity key) := by
  rw [home, h]
  rfl

variable {hasher : K → Size} {m : Map K V} {nodes : List ℕ}

theorem WF.nodup (h : m.WF hasher nodes) : nodes.Nodup := h.distinct.of_map

theorem WF.chain_nodup (h : m.WF hasher nodes) (i : ℕ) :
    (m.chainOf hasher nodes i).Nodup :=
  h.nodup.filter _

theorem WF.chain_stored (h : m.WF hasher nodes) (i : ℕ) :
    ∀ a ∈ m.chainOf hasher nodes i, Stored m.heap a :=
  fun a ha => h.stored a (mem_chainAt.mp ha).1

theorem WF.bucket (h : m.WF hasher nodes) (key : K) :
    ∃ b, m.buckets[m.bucketIndexForKey hasher key]? = some b := by
  have hlt : m.bucketIndexForKey hasher key < m.capacity.toNat := bucketIndex_lt h.pos key
  rw [← h.size] at hlt
  exact ⟨_, List.getElem?_eq_getElem hlt⟩

/-- No two entries have the same key. -/
theorem WF.eq_of_key (h : m.WF hasher nodes) {key : K} {a c : ℕ} (ha : a ∈ nodes) (hc : c ∈ nodes)
    (hka : keyOf m.heap a = some key) (hkc : keyOf m.heap c = some key) : a = c :=
  List.inj_on_of_nodup_map h.distinct ha hc (hka.trans hkc.symm)

/-- A key is in the chain of its bucket, or nowhere. -/
theorem mem_chain_iff (hasher : K → Size) {a : ℕ} {key : K}
    (hk : keyOf m.heap a = some key) :
    a ∈ m.chainOf hasher nodes (m.bucketIndexForKey hasher key) ↔
      a ∈ nodes := by
  rw [mem_chainAt, home_of_key hk]
  exact and_iff_left rfl

/-- No entry has a key whose bucket is empty. -/
theorem WF.absent_of_empty (h : m.WF hasher nodes) {key : K} {b : Bucket}
    (hb : m.buckets[m.bucketIndexForKey hasher key]? = some b) (hzero : b.nItems = 0) :
    m.chainOf hasher nodes (m.bucketIndexForKey hasher key) = [] ∧
      ∀ a ∈ nodes, keyOf m.heap a ≠ some key := by
  have hnil : m.chainOf hasher nodes (m.bucketIndexForKey hasher key) = [] := by
    apply List.length_eq_zero_iff.mp
    rw [← (h.holds _ b hb).nItems, hzero]
    rfl
  refine ⟨hnil, fun a ha hk => ?_⟩
  have hmem := (mem_chain_iff hasher hk).mpr ha
  rw [hnil] at hmem
  cases hmem

/-! ## Searching for a key -/

/-- Where the search for a key along the chain `l` ends. -/
def Found.EndsOn (heap : Heap (Entry K V)) (key : K) (l : List ℕ) : Found → Prop
  | .hit a => a ∈ l ∧ keyOf heap a = some key
  | .miss z => l.getLast? = some z ∧ ∀ a ∈ l, keyOf heap a ≠ some key

/-- A search that misses has met every entry that could have the key. -/
theorem absent_of_miss {key : K} {z : ℕ} (hmiss : (Found.miss z).EndsOn m.heap key
      (m.chainOf hasher nodes (m.bucketIndexForKey hasher key))) :
    ∀ a ∈ nodes, keyOf m.heap a ≠ some key :=
  fun a ha hk => hmiss.2 a ((mem_chain_iff hasher hk).mpr ha) hk

variable [DecidableEq K]

/-- The search for a key along a chain ends at the entry that has it, or at the last. -/
theorem iterate_searchBody {heap : Heap (Entry K V)} (key : K) {a fuel : ℕ}
    {l : List ℕ} (hc : Chain (next heap) (some a) l) (hl : ∀ b ∈ l, Stored heap b)
    (hfuel : l.length < fuel) :
    ∃ r, iterate (searchBody heap key) fuel a = some r ∧ r.EndsOn heap key l := by
  induction l generalizing a fuel with
  | nil => cases hc
  | cons b l ih =>
      obtain ⟨hab, hrest⟩ := hc
      obtain rfl := Option.some.inj hab
      obtain ⟨fuel, rfl⟩ : ∃ n, fuel = n + 1 := ⟨fuel - 1, by omega⟩
      obtain ⟨e, he, hnext, hkey⟩ := (hl a List.mem_cons_self).cell
      rw [hnext] at hrest
      by_cases heq : key = e.key
      · refine ⟨.hit a, iterate_exit fuel (by simp [searchBody, he, heq]),
          List.mem_cons_self, ?_⟩
        rw [hkey, heq]
      · have hne : keyOf heap a ≠ some key := by
          rw [hkey]
          intro h
          exact heq (Option.some.inj h).symm
        rcases hn : e.next with _ | c
        · rw [hn, chain_none] at hrest
          subst hrest
          refine ⟨.miss a, iterate_exit fuel (by simp [searchBody, he, heq, hn]), rfl, ?_⟩
          intro b hb
          rw [List.mem_singleton.mp hb]
          exact hne
        · rw [hn] at hrest
          have hbody : searchBody heap key a = some (.inl c) := by
            simp [searchBody, he, heq, hn]
          rw [iterate_next fuel hbody]
          obtain ⟨r, hr, hends⟩ := ih hrest (fun b hb => hl b (List.mem_cons_of_mem _ hb))
            (Nat.lt_of_succ_lt_succ hfuel)
          refine ⟨r, hr, ?_⟩
          rcases r with d | z
          · exact ⟨List.mem_cons_of_mem _ hends.1, hends.2⟩
          · refine ⟨by rw [List.getLast?_cons, hends.1]; rfl, ?_⟩
            intro b hb
            rcases List.mem_cons.mp hb with rfl | hb
            · exact hne
            · exact hends.2 b hb

/-- What the search for a key in its bucket comes to. -/
theorem WF.search (h : m.WF hasher nodes) {key : K} {b : Bucket}
    (hb : m.buckets[m.bucketIndexForKey hasher key]? = some b) (hne : b.nItems ≠ 0) :
    ∃ r, Map.search m.heap b key = some r ∧
      r.EndsOn m.heap key (m.chainOf hasher nodes (m.bucketIndexForKey hasher key)) := by
  have hholds := h.holds _ b hb
  rcases hfirst : b.first with _ | a
  · have hchain := hholds.chain
    rw [hfirst, chain_none] at hchain
    have hcount := hholds.nItems
    rw [hchain] at hcount
    exact absurd (BitVec.eq_of_toNat_eq hcount) hne
  · have hchain := hholds.chain
    rw [hfirst] at hchain
    obtain ⟨r, hr, hends⟩ := iterate_searchBody key hchain (h.chain_stored _)
      (length_lt_walkFuel (h.chain_nodup _) (h.chain_stored _))
    exact ⟨r, by rw [Map.search, hfirst]; exact hr, hends⟩

/-- **The search for a key that is present** ends at its entry. -/
theorem WF.search_present (h : m.WF hasher nodes) {key : K} {a : ℕ} (ha : a ∈ nodes)
    (hk : keyOf m.heap a = some key) :
    ∃ b, m.buckets[m.bucketIndexForKey hasher key]? = some b ∧ b.nItems ≠ 0 ∧
      Map.search m.heap b key = some (.hit a) := by
  obtain ⟨b, hb⟩ := h.bucket key
  have hne : b.nItems ≠ 0 := fun hzero => (h.absent_of_empty hb hzero).2 a ha hk
  obtain ⟨r, hr, hends⟩ := h.search hb hne
  rcases r with c | z
  · obtain rfl := h.eq_of_key ha (mem_chainAt.mp hends.1).1 hk hends.2
    exact ⟨b, hb, hne, hr⟩
  · exact absurd hk (absent_of_miss hends a ha)

/-- **The search for a key that is absent** is not made, or ends at the last entry of the
bucket. -/
theorem WF.search_absent (h : m.WF hasher nodes) {key : K}
    (habsent : ∀ a ∈ nodes, keyOf m.heap a ≠ some key) :
    ∃ b, m.buckets[m.bucketIndexForKey hasher key]? = some b ∧
      (b.nItems = 0 ∨ b.nItems ≠ 0 ∧ ∃ z, Map.search m.heap b key = some (.miss z) ∧
        (m.chainOf hasher nodes (m.bucketIndexForKey hasher key)).getLast? = some z) := by
  obtain ⟨b, hb⟩ := h.bucket key
  refine ⟨b, hb, ?_⟩
  by_cases hzero : b.nItems = 0
  · exact Or.inl hzero
  · obtain ⟨r, hr, hends⟩ := h.search hb hzero
    rcases r with a | z
    · exact absurd hends.2 (habsent a (mem_chainAt.mp hends.1).1)
    · exact Or.inr ⟨hzero, z, hr, hends.1⟩

end Coroutines.Map
