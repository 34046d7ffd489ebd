import Coroutines.Map.Refinement

/-!
# Removing a key

`remove` walks along the chain of the bucket with a pointer `prev` to the entry before, but does
not advance it. It unlinks the entry with the key as if it were the first of the chain: the
entries before it drop out of the table, and the counts do not follow.
-/

namespace Coroutines.Map

open Links Loop
open Function (update_self update_of_ne)

variable {K V : Type}

section
variable [DecidableEq K]

/-- `lookup`, with what the references of its result read. -/
def find (hasher : K → Size) (m : Map K V) (key : K) : Option (Option (K × V)) := do
  let r ← m.lookup hasher key
  r.read m

def RemoveKVResult.read (r : RemoveKVResult K V) : Option (K × V) := do
  let key ← r.key
  let value ← r.value
  some (key, value)

/-- What `remove` is for: it returns the entry with the key, if there is one, and leaves a
well-formed table without it. -/
structure Removed (hasher : K → Size) (m m' : Map K V) (key : K) (r : RemoveKVResult K V) :
    Prop where
  returned : m.find hasher key = some r.read
  gone : m'.find hasher key = some none
  others : ∀ k, k ≠ key → m'.find hasher k = m.find hasher k
  count : m'.nItems.toNat + (if r.read.isSome then 1 else 0) = m.nItems.toNat
  wf : ∃ nodes, m'.WF hasher nodes

def Removes (hasher : K → Size) (m : Map K V) (key : K) : Prop :=
  ∃ m' r, m.remove hasher key = some (m', r) ∧ Removed hasher m m' key r

/-- The entry with the key, if there is one, is the first of its bucket. -/
def FirstOrAbsent (hasher : K → Size) (m : Map K V) (nodes : List ℕ) (key : K) : Prop :=
  ∀ a ∈ nodes, keyOf m.heap a = some key →
    ∀ b, m.buckets[m.bucketIndexForKey hasher key]? = some b → b.first = some a

end

variable {hasher : K → Size} {m : Map K V} {nodes : List ℕ} {key : K}

/-! ## What a lookup reads -/

/-- One entry less. -/
theorem WF.length_filter (h : m.WF hasher nodes) {a : ℕ} (ha : a ∈ nodes) :
    (nodes.filter (· ≠ a)).length + 1 = nodes.length := by
  have hlen := (List.perm_cons_erase ha).length_eq
  rw [h.nodup.erase_eq_filter, List.length_cons] at hlen
  rw [hlen]
  congr 2
  refine List.filter_congr fun x _ => ?_
  by_cases hx : x = a <;> simp [hx]

section
variable [DecidableEq K]

theorem WF.find_absent (h : m.WF hasher nodes)
    (habsent : ∀ a ∈ nodes, keyOf m.heap a ≠ some key) : m.find hasher key = some none := by
  rw [find, h.lookup_absent habsent]
  rfl

theorem WF.find_present (h : m.WF hasher nodes) {a : ℕ} {value : V} (ha : a ∈ nodes)
    (hp : payload m.heap a = some (key, value)) :
    m.find hasher key = some (some (key, value)) := by
  rw [find, h.lookup_present ha (keyOf_of_payload hp)]
  exact read_ofEntry hp

/-! ## What the call comes to -/

/-- The key is nowhere, and nothing happens. -/
theorem WF.remove_absent (h : m.WF hasher nodes)
    (habsent : ∀ a ∈ nodes, keyOf m.heap a ≠ some key) : m.remove hasher key = some (m, {}) := by
  obtain ⟨b, hb, hzero | ⟨hne, z, hsearch, -⟩⟩ := h.search_absent habsent
  · simp only [Map.remove, hb, Option.bind_eq_bind, Option.bind_some, if_pos hzero]
  · simp only [Map.remove, hb, Option.bind_eq_bind, Option.bind_some, if_neg hne, hsearch]

/-- The table after the entry `e` at `a` was taken for the first of its bucket. -/
def unlinked (m : Map K V) (index : ℕ) (b : Bucket) (a : ℕ) (e : Entry K V) : Map K V :=
  { m with
    heap := m.heap.free a
    buckets := m.buckets.set index { first := e.next, nItems := b.nItems - 1 }
    nItems := m.nItems - 1 }

/-- **The entry with the key** is unlinked as the first of its bucket, wherever it is. -/
theorem WF.remove_present (h : m.WF hasher nodes) {a : ℕ} {b : Bucket} (ha : a ∈ nodes)
    (hk : keyOf m.heap a = some key)
    (hb : m.buckets[m.bucketIndexForKey hasher key]? = some b) :
    ∃ e, m.heap.cells a = some e ∧ e.key = key ∧
      m.remove hasher key = some (m.unlinked (m.bucketIndexForKey hasher key) b a e,
        { key := some e.key, value := some e.value }) := by
  obtain ⟨e, he, -, hkey⟩ := (h.stored a ha).cell
  refine ⟨e, he, Option.some.inj (hkey.symm.trans hk), ?_⟩
  obtain ⟨b', hb', hne, hsearch⟩ := h.search_present ha hk
  obtain rfl : b = b' := Option.some.inj (hb.symm.trans hb')
  simp only [Map.remove, hb, Option.bind_eq_bind, Option.bind_some, if_neg hne, hsearch, he]
  rfl

end

/-! ## An entry that is the first of its bucket -/

theorem keyOf_free (heap : Heap (Entry K V)) {a x : ℕ} (hne : x ≠ a) :
    keyOf (heap.free a) x = keyOf heap x := by
  rw [keyOf, keyOf, payload_free, update_of_ne hne]

theorem home_free (hasher : K → Size) (capacity : Size) (heap : Heap (Entry K V)) {a x : ℕ}
    (hne : x ≠ a) : home hasher capacity (heap.free a) x = home hasher capacity heap x := by
  rw [home, home, keyOf_free heap hne]

/-- The chains without the entry. -/
theorem chainAt_free (hasher : K → Size) (capacity : Size) (heap : Heap (Entry K V)) (a i : ℕ)
    (nodes : List ℕ) :
    chainAt (home hasher capacity (heap.free a)) (nodes.filter (· ≠ a)) i =
      (chainAt (home hasher capacity heap) nodes i).filter (· ≠ a) := by
  rw [chainAt, chainAt, List.filter_filter, List.filter_filter]
  refine List.filter_congr fun x _ => ?_
  by_cases hx : x = a
  · simp [hx]
  · simp [hx, home_free hasher capacity heap hx]

theorem toNat_pred {x : Size} {n : ℕ} (h : x.toNat = n + 1) : (x - 1).toNat = n := by
  rw [BitVec.toNat_sub_of_le, h]
  · rfl
  · rw [BitVec.le_def, h]
    exact Nat.le_add_left 1 _

/-- Freeing an entry leaves the chains alone that it is not in. -/
theorem Bucket.Holds.free {heap : Heap (Entry K V)} {b : Bucket} {l : List ℕ} {a : ℕ}
    (h : b.Holds heap l) (hnot : a ∉ l) : b.Holds (heap.free a) l := by
  refine ⟨?_, h.nItems⟩
  rw [next_free]
  exact h.chain.update hnot

/-- A bucket moves on to the entry after its first. -/
theorem Bucket.Holds.rest {heap : Heap (Entry K V)} {b : Bucket} {l : List ℕ} {a : ℕ}
    {e : Entry K V} (h : b.Holds heap l) (hnd : l.Nodup) (he : heap.cells a = some e)
    (hfirst : b.first = some a) :
    Bucket.Holds (heap.free a) { first := e.next, nItems := b.nItems - 1 }
      (l.filter (· ≠ a)) := by
  obtain ⟨hchain, hcount⟩ := h
  rw [hfirst] at hchain
  obtain ⟨rest, rfl, htail⟩ := chain_some.mp hchain
  obtain ⟨hnot, -⟩ := List.nodup_cons.mp hnd
  have hnext : next heap a = e.next := by
    rw [next, he]
    rfl
  have hrest : rest.filter (· ≠ a) = rest :=
    List.filter_eq_self.mpr fun x hx => decide_eq_true (ne_of_mem_of_not_mem hx hnot)
  rw [List.filter_cons_of_neg (by simp), hrest]
  rw [hnext] at htail
  rw [List.length_cons] at hcount
  constructor
  · rw [next_free]
    exact htail.update hnot
  · exact toNat_pred hcount

/-- **Unlinking the first entry of a bucket** takes it out of the table. -/
theorem WF.unlinked (h : m.WF hasher nodes) {a : ℕ} {b : Bucket} {e : Entry K V}
    (ha : a ∈ nodes) (hk : keyOf m.heap a = some key) (he : m.heap.cells a = some e)
    (hb : m.buckets[m.bucketIndexForKey hasher key]? = some b) (hfirst : b.first = some a) :
    (m.unlinked (m.bucketIndexForKey hasher key) b a e).WF hasher (nodes.filter (· ≠ a)) := by
  have hother : ∀ x ∈ nodes.filter (· ≠ a), x ∈ nodes ∧ x ≠ a := by
    intro x hx
    simpa using hx
  constructor
  case size =>
    show (m.buckets.set _ _).length = _
    rw [List.length_set]
    exact h.size
  case pos => exact h.pos
  case stored =>
    intro x hx
    obtain ⟨hmem, hne⟩ := hother x hx
    show Stored (m.heap.free a) x
    rw [Stored, payload_free, update_of_ne hne]
    exact h.stored x hmem
  case distinct =>
    have hsame : (nodes.filter (· ≠ a)).map (keyOf (m.heap.free a)) =
        (nodes.filter (· ≠ a)).map (keyOf m.heap) :=
      List.map_congr_left fun x hx => keyOf_free m.heap (hother x hx).2
    show ((nodes.filter (· ≠ a)).map (keyOf (m.heap.free a))).Nodup
    rw [hsame]
    exact h.distinct.sublist (List.filter_sublist.map _)
  case holds =>
    intro i b' hb'
    show b'.Holds (m.heap.free a) (chainAt (home hasher m.capacity (m.heap.free a)) _ i)
    rw [chainAt_free]
    have hset : (m.buckets.set (m.bucketIndexForKey hasher key)
        { first := e.next, nItems := b.nItems - 1 })[i]? = some b' := hb'
    by_cases hi : i = m.bucketIndexForKey hasher key
    · -- the bucket of the key loses its first entry
      subst hi
      rw [List.getElem?_set_self (List.getElem?_eq_some_iff.mp hb).1] at hset
      obtain rfl := Option.some.inj hset
      exact (h.holds _ b hb).rest (h.chain_nodup _) he hfirst
    · -- the other buckets do not have it
      rw [List.getElem?_set_ne (Ne.symm hi)] at hset
      have hnot : a ∉ m.chainOf hasher nodes i := by
        intro hmem
        have hhome := (mem_chainAt.mp hmem).2
        rw [home_of_key hk] at hhome
        exact hi (Option.some.inj hhome).symm
      have hholds := (h.holds i b' hset).free hnot
      rwa [← List.filter_eq_self.mpr fun x hx =>
        decide_eq_true (ne_of_mem_of_not_mem hx hnot)] at hholds
  case count =>
    have hcount := h.count
    rw [← h.length_filter ha] at hcount
    exact toNat_pred hcount

/-! ## An entry that is not -/

/-- **An unlinked entry was the first of its bucket**, if the table is still well-formed: the
count of the bucket is one less, and its chain is what followed the entry. -/
theorem WF.first_of_unlinked (h : m.WF hasher nodes) {nodes' : List ℕ} {a : ℕ} {b : Bucket}
    {e : Entry K V} (ha : a ∈ nodes) (hk : keyOf m.heap a = some key)
    (he : m.heap.cells a = some e)
    (hb : m.buckets[m.bucketIndexForKey hasher key]? = some b)
    (h' : (m.unlinked (m.bucketIndexForKey hasher key) b a e).WF hasher nodes') :
    b.first = some a := by
  obtain ⟨before, after, hsplit⟩ :=
    List.append_of_mem ((mem_chain_iff hasher hk).mpr ha)
  obtain ⟨hchain, hcount⟩ := h.holds _ b hb
  have hnd := h.chain_nodup (m.bucketIndexForKey hasher key)
  rw [hsplit] at hchain hcount hnd
  have hset : (m.unlinked (m.bucketIndexForKey hasher key) b a e).buckets[
      m.bucketIndexForKey hasher key]? = some { first := e.next, nItems := b.nItems - 1 } :=
    List.getElem?_set_self (List.getElem?_eq_some_iff.mp hb).1
  obtain ⟨hchain', hcount'⟩ := h'.holds _ _ hset
  have htail : Chain (next (m.heap.free a)) e.next after := by
    have hrest := hchain.rest
    rw [next, he] at hrest
    rw [next_free]
    apply Chain.update hrest
    exact (List.nodup_cons.mp (List.nodup_append.mp hnd).2.1).1
  have hafter := hchain'.unique htail
  have hlast : (b.nItems - 1).toNat = after.length := by
    rw [← hafter]
    exact hcount'
  have hbefore : before = [] := by
    rw [List.length_append, List.length_cons, ← Nat.add_assoc] at hcount
    rw [toNat_pred hcount] at hlast
    apply List.length_eq_zero_iff.mp
    omega
  rw [hbefore] at hchain
  exact hchain.1

/-! ## When `remove` removes -/

section
variable [DecidableEq K]

/-- The table without the key looks the same otherwise. -/
theorem WF.removed (h : m.WF hasher nodes) {a : ℕ} {b : Bucket} {e : Entry K V}
    (ha : a ∈ nodes) (he : m.heap.cells a = some e)
    (hb : m.buckets[m.bucketIndexForKey hasher e.key]? = some b) (hfirst : b.first = some a) :
    Removed hasher m (m.unlinked (m.bucketIndexForKey hasher e.key) b a e) e.key
      { key := some e.key, value := some e.value } := by
  have hp := payload_of_cell he
  have hk := keyOf_of_payload hp
  have h' := h.unlinked ha hk he hb hfirst
  have hmem : ∀ {x}, x ∈ nodes.filter (· ≠ a) ↔ x ∈ nodes ∧ x ≠ a := by
    intro x
    simp
  constructor
  case returned => exact h.find_present ha hp
  case gone =>
    refine h'.find_absent fun x hx hkx => ?_
    obtain ⟨hx, hne⟩ := hmem.mp hx
    have hkx : keyOf (m.heap.free a) x = some e.key := hkx
    rw [keyOf_free m.heap hne] at hkx
    exact hne (h.eq_of_key hx ha hkx hk)
  case others =>
    intro k hkey
    by_cases hpresent : ∃ x ∈ nodes, keyOf m.heap x = some k
    · obtain ⟨x, hx, hkx⟩ := hpresent
      obtain ⟨value, hpx⟩ := keyOf_eq_some hkx
      have hne : x ≠ a := by
        rintro rfl
        rw [hk] at hkx
        exact hkey (Option.some.inj hkx).symm
      rw [h.find_present hx hpx]
      apply h'.find_present (hmem.mpr ⟨hx, hne⟩)
      show payload (m.heap.free a) x = some (k, value)
      rw [payload_free, update_of_ne hne]
      exact hpx
    · have habsent : ∀ x ∈ nodes, keyOf m.heap x ≠ some k := fun x hx hkx =>
        hpresent ⟨x, hx, hkx⟩
      rw [h.find_absent habsent]
      refine h'.find_absent fun x hx hkx => ?_
      obtain ⟨hx, hne⟩ := hmem.mp hx
      have hkx : keyOf (m.heap.free a) x = some k := hkx
      rw [keyOf_free m.heap hne] at hkx
      exact habsent x hx hkx
  case count =>
    rw [h'.count, h.count]
    exact h.length_filter ha
  case wf => exact ⟨_, h'⟩

/-- **`remove` does its work** on exactly the keys that are absent or first in their bucket.
A table without buckets, which is what a maximum capacity of one gives, cannot be asked. -/
theorem removes_iff (h : m.WF hasher nodes ∨ m.buckets = []) (key : K) :
    m.Removes hasher key ↔ m.buckets ≠ [] ∧ m.FirstOrAbsent hasher nodes key := by
  rcases h with h | hnone
  · have hbuckets : m.buckets ≠ [] := by
      rw [← List.length_pos_iff, h.size]
      exact h.pos
    obtain ⟨b, hb⟩ := h.bucket key
    by_cases hpresent : ∃ a ∈ nodes, keyOf m.heap a = some key
    · obtain ⟨a, ha, hk⟩ := hpresent
      obtain ⟨e, he, rfl, hremove⟩ := h.remove_present ha hk hb
      constructor
      · rintro ⟨m', r, hr, hremoved⟩
        rw [hremove] at hr
        cases hr
        obtain ⟨nodes', h'⟩ := hremoved.wf
        refine ⟨hbuckets, fun c hc hkc b' hb' => ?_⟩
        obtain rfl := h.eq_of_key ha hc hk hkc
        rw [hb] at hb'
        cases hb'
        exact h.first_of_unlinked ha hk he hb h'
      · rintro ⟨-, hfirst⟩
        exact ⟨_, _, hremove, h.removed ha he hb (hfirst a ha hk b hb)⟩
    · have habsent : ∀ a ∈ nodes, keyOf m.heap a ≠ some key := fun a ha hk =>
        hpresent ⟨a, ha, hk⟩
      constructor
      · intro _
        exact ⟨hbuckets, fun a ha hk => absurd hk (habsent a ha)⟩
      · intro _
        exact ⟨m, {}, h.remove_absent habsent, h.find_absent habsent, h.find_absent habsent,
          fun _ _ => rfl, rfl, nodes, h⟩
  · constructor
    · rintro ⟨m', r, hr, -⟩
      simp [Map.remove, hnone] at hr
    · rintro ⟨hbuckets, -⟩
      exact absurd hnone hbuckets

end

/-- Two entries of one bucket, as two insertions leave them. -/
def collided : Map ℕ ℕ where
  nItems := 2
  capacity := 2
  maxCapacity := 2
  buckets := [{}, { first := some 0, nItems := 2 }]
  heap := ((Heap.empty.alloc { next := some 1, key := 1, value := 10 }).2.alloc
    { next := none, key := 2, value := 20 }).2

theorem wf_collided : collided.WF (fun _ => 7) [0, 1] := by
  constructor
  case size => rfl
  case pos => decide
  case stored =>
    intro a ha
    rcases List.mem_pair.mp ha with rfl | rfl
    · exact ⟨(1, 10), rfl⟩
    · exact ⟨(2, 20), rfl⟩
  case distinct => decide
  case holds =>
    intro i b hb
    rcases i with _ | _ | i
    · obtain rfl := Option.some.inj hb
      exact ⟨rfl, rfl⟩
    · obtain rfl := Option.some.inj hb
      exact ⟨⟨rfl, rfl, rfl⟩, rfl⟩
    · cases hb
  case count => rfl

theorem removes_first : collided.Removes (fun _ => 7) 1 := by
  refine (removes_iff (Or.inl wf_collided) 1).mpr ⟨by simp [collided], ?_⟩
  intro a ha hk b hb
  obtain rfl := Option.some.inj hb
  rcases List.mem_pair.mp ha with rfl | rfl
  · rfl
  · cases hk

/-- Once the second entry was removed, a lookup of the first follows a null pointer. -/
theorem remove_second : collided.WF (fun _ => 7) [0, 1] ∧
    collided.find (fun _ => 7) 1 = some (some (1, 10)) ∧
    ((collided.remove (fun _ => 7) 2).bind fun p => p.1.find (fun _ => 7) 1) = none ∧
    ¬ collided.Removes (fun _ => 7) 2 := by
  have hfind : collided.find (fun _ => 7) 1 = some (some (1, 10)) := rfl
  have hlost : ((collided.remove (fun _ => 7) 2).bind fun p => p.1.find (fun _ => 7) 1) =
      none := rfl
  refine ⟨wf_collided, hfind, hlost, ?_⟩
  rintro ⟨m', r, hr, hremoved⟩
  have hothers := hremoved.others 1 (by decide)
  rw [hr] at hlost
  have hnone : m'.find (fun _ => 7) 1 = none := hlost
  rw [hnone, hfind] at hothers
  cases hothers

end Coroutines.Map
