import Coroutines.Map.Table

/-!
# Resizing the table

`Map::perform_resize_if_required` relinks the entries in place while it walks the very
chains it takes apart. Half way through, some entries have moved: they form the chains
of the new table, in the order in which they moved, and the links of the others are as
they were. `Relinked` says so; a resize moves all entries, bucket by bucket.
-/

namespace Coroutines.Map

open Links Loop
open Function (update_self update_of_ne)

variable {K V : Type}

/-! ## Appending to a bucket -/

/-- **Appending an entry** at the end of the chain of a bucket. -/
theorem insertIntoBucket_spec {heap : Heap (Entry K V)} {b : Bucket} {l : List ℕ} {a : ℕ}
    (h : b.Holds heap l) (hnd : l.Nodup) (hl : ∀ x ∈ l, Stored heap x) (ha : Stored heap a)
    (hal : a ∉ l) (hsmall : l.length + 1 < 2 ^ 64) :
    ∃ heap' b', insertIntoBucket heap b a = some (heap', b') ∧ b'.Holds heap' (l ++ [a]) ∧
      payload heap' = payload heap ∧
      ∀ x, x ∉ l → x ≠ a → next heap' x = next heap x := by
  obtain ⟨heap₁, hset₁, hnext₁, hpay₁⟩ := setNext_spec ha none
  have hchain : Chain (next heap₁) b.first l := by
    rw [hnext₁]
    exact h.chain.update hal
  have hitems : (b.nItems + 1).toNat = (l ++ [a]).length := by
    rw [BitVec.toNat_add, h.nItems, List.length_append]
    exact Nat.mod_eq_of_lt hsmall
  have hnone : next heap₁ a = none := by rw [hnext₁, update_self]
  rcases hfirst : b.first with _ | f
  · rw [hfirst, chain_none] at hchain
    subst hchain
    refine ⟨heap₁, { first := some a, nItems := b.nItems + 1 },
      by simp [insertIntoBucket, hset₁, hfirst], ⟨?_, hitems⟩, hpay₁, ?_⟩
    · exact ⟨rfl, hnone⟩
    · intro x _ hxa
      rw [hnext₁, update_of_ne hxa]
  · have hl₁ : ∀ x ∈ l, Stored heap₁ x := by
      intro x hx
      rw [Stored, hpay₁]
      exact hl x hx
    rw [hfirst] at hchain
    obtain ⟨z, hz, hlast⟩ := iterate_endBody hchain hl₁ (length_lt_walkFuel hnd hl₁)
    have hzl : z ∈ l := List.mem_of_getLast? hlast
    obtain ⟨heap₂, hset₂, hnext₂, hpay₂⟩ := setNext_spec (hl₁ z hzl) (some a)
    refine ⟨heap₂, { b with nItems := b.nItems + 1 },
      by simp [insertIntoBucket, hset₁, hfirst, hz, hset₂], ⟨?_, hitems⟩,
      hpay₂.trans hpay₁, ?_⟩
    · show Chain (next heap₂) b.first (l ++ [a])
      rw [hfirst, hnext₂]
      exact hchain.snoc hnd hlast hnone hal
    · intro x hxl hxa
      have hxz : x ≠ z := fun hxz => hxl (hxz ▸ hzl)
      rw [hnext₂, update_of_ne hxz, hnext₁, update_of_ne hxa]

/-! ## Half way through a resize -/

/-- The entries `moved` form the new table; the others are linked as they were. -/
structure Relinked (hasher : K → Size) (newCapacity : Size) (heap : Heap (Entry K V))
    (moved : List ℕ) (s : Relink K V) : Prop where
  payload : payload s.heap = payload heap
  rest : ∀ a, a ∉ moved → next s.heap a = next heap a
  size : s.newBuckets.length = newCapacity.toNat
  holds : ∀ j (b : Bucket), s.newBuckets[j]? = some b →
    b.Holds s.heap (chainAt (home hasher newCapacity heap) moved j)

section
variable {hasher : K → Size} {newCapacity : Size} {heap : Heap (Entry K V)}
  {moved : List ℕ} {s : Relink K V}

theorem chainAt_append (home : ℕ → Option ℕ) (l l' : List ℕ) (i : ℕ) :
    chainAt home (l ++ l') i = chainAt home l i ++ chainAt home l' i :=
  List.filter_append _ _

/-- **One entry moves** to the end of its new chain. -/
theorem Relinked.move (h : Relinked hasher newCapacity heap moved s) {a : ℕ}
    (hpos : 0 < newCapacity.toNat) (hnd : (moved ++ [a]).Nodup)
    (hst : ∀ x ∈ moved ++ [a], Stored heap x) (hsmall : moved.length + 1 < 2 ^ 64) :
    ∃ s', relinkBody hasher newCapacity (some a, s) = some (.inl (next s.heap a, s')) ∧
      Relinked hasher newCapacity heap (moved ++ [a]) s' := by
  obtain ⟨hnd', -, hdisj⟩ := List.nodup_append.mp hnd
  have ham : a ∉ moved := fun ha => hdisj a ha a (List.mem_singleton_self a) rfl
  have hstored : ∀ x, Stored heap x → Stored s.heap x := by
    intro x hx
    rw [Stored, h.payload]
    exact hx
  have hsta : Stored heap a := hst a (List.mem_append_right _ (List.mem_singleton_self a))
  obtain ⟨e, he, hnext, hkey⟩ := (hstored a hsta).cell
  have hhome : home hasher newCapacity heap a =
      some (bucketIndex hasher newCapacity e.key) := by
    apply home_of_key
    rw [← hkey, keyOf, keyOf, h.payload]
  have hlt : bucketIndex hasher newCapacity e.key < s.newBuckets.length := by
    rw [h.size]
    exact bucketIndex_lt hpos e.key
  obtain ⟨b, hb⟩ : ∃ b, s.newBuckets[bucketIndex hasher newCapacity e.key]? = some b :=
    ⟨_, List.getElem?_eq_getElem hlt⟩
  have hchainmoved : ∀ j, ∀ x ∈ chainAt (home hasher newCapacity heap) moved j, x ∈ moved :=
    fun j x hx => (mem_chainAt.mp hx).1
  have hlen : (chainAt (home hasher newCapacity heap) moved
      (bucketIndex hasher newCapacity e.key)).length ≤ moved.length :=
    List.length_filter_le _ _
  obtain ⟨heap', b', hins, hholds, hpay, hrest⟩ :=
    insertIntoBucket_spec (h.holds _ b hb) (hnd'.filter _)
      (fun x hx => hstored x (hst x (List.mem_append_left _ (hchainmoved _ x hx))))
      (hstored a hsta) (fun ha => ham (hchainmoved _ a ha)) (by omega)
  refine ⟨{
    heap := heap'
    newBuckets := s.newBuckets.set (bucketIndex hasher newCapacity e.key) b' }, ?_, ?_, ?_, ?_, ?_⟩
  · simp [relinkBody, he, hb, hins, hnext]
  · exact hpay.trans h.payload
  · intro x hx
    rw [List.mem_append, not_or, List.mem_singleton] at hx
    rw [hrest x (fun hxc => hx.1 (hchainmoved _ x hxc)) hx.2, h.rest x hx.1]
  · rw [List.length_set]
    exact h.size
  · intro j c hc
    rw [chainAt_append]
    by_cases hj : bucketIndex hasher newCapacity e.key = j
    · subst hj
      rw [List.getElem?_set_self hlt] at hc
      cases hc
      have hsingle : chainAt (home hasher newCapacity heap) [a]
          (bucketIndex hasher newCapacity e.key) = [a] := by
        simp [chainAt, hhome]
      rw [hsingle]
      exact hholds
    · rw [List.getElem?_set_ne hj] at hc
      have hsingle : chainAt (home hasher newCapacity heap) [a] j = [] := by
        simp [chainAt, hhome, hj]
      rw [hsingle, List.append_nil]
      have hold := h.holds j c hc
      refine ⟨hold.chain.congr fun x hx => ?_, hold.nItems⟩
      -- an entry of another chain keeps its link
      refine hrest x (fun hxc => ?_) (fun hxa => ham (hxa ▸ hchainmoved _ x hx))
      have hxj := (mem_chainAt.mp hx).2
      rw [(mem_chainAt.mp hxc).2] at hxj
      exact hj (Option.some.inj hxj)

/-- **The entries of one old chain move**, in their order. -/
theorem Relinked.moveChain {p : Option ℕ} {l : List ℕ} {fuel : ℕ}
    (h : Relinked hasher newCapacity heap moved s) (hc : Chain (next s.heap) p l)
    (hpos : 0 < newCapacity.toNat) (hnd : (moved ++ l).Nodup)
    (hst : ∀ x ∈ moved ++ l, Stored heap x) (hsmall : (moved ++ l).length < 2 ^ 64)
    (hfuel : l.length < fuel) :
    ∃ s', iterate (relinkBody hasher newCapacity) fuel (p, s) = some s' ∧
      Relinked hasher newCapacity heap (moved ++ l) s' := by
  induction l generalizing p moved s fuel with
  | nil =>
      rw [chain_nil] at hc
      subst hc
      obtain ⟨fuel, rfl⟩ : ∃ n, fuel = n + 1 := ⟨fuel - 1, by omega⟩
      rw [List.append_nil]
      exact ⟨s, iterate_exit fuel rfl, h⟩
  | cons a l ih =>
      obtain ⟨rfl, hrest⟩ := hc
      obtain ⟨fuel, rfl⟩ : ∃ n, fuel = n + 1 := ⟨fuel - 1, by omega⟩
      rw [List.append_cons] at hnd hst hsmall ⊢
      obtain ⟨s', hbody, h'⟩ := h.move hpos (hnd.sublist (List.sublist_append_left _ _))
        (fun x hx => hst x (List.mem_append_left _ hx)) (by simp at hsmall; omega)
      rw [iterate_next fuel hbody]
      refine ih h' (hrest.congr fun x hx => ?_) hnd hst hsmall (Nat.lt_of_succ_lt_succ hfuel)
      -- the rest of the old chain has not moved
      have hx' : x ∉ moved ++ [a] :=
        fun hxm => (List.nodup_append.mp hnd).2.2 x hxm x hx rfl
      rw [h'.rest x hx', h.rest x fun hxm => hx' (List.mem_append_left _ hxm)]

/-! ## The whole resize -/

/-- Nothing is lost when a list is taken apart by home. -/
theorem flatMap_chainAt_perm {home : ℕ → Option ℕ} {nodes : List ℕ} {n : ℕ}
    (hnd : nodes.Nodup) (hhome : ∀ a ∈ nodes, ∃ i < n, home a = some i) :
    ((List.range n).flatMap (chainAt home nodes)).Perm nodes := by
  have hnd' : ((List.range n).flatMap (chainAt home nodes)).Nodup := by
    refine List.nodup_flatMap.mpr ⟨fun i _ => hnd.filter _, List.nodup_range.imp fun hne => ?_⟩
    intro x hx hx'
    have hxi := (mem_chainAt.mp hx).2
    rw [(mem_chainAt.mp hx').2] at hxi
    exact hne (Option.some.inj hxi).symm
  refine (List.perm_ext_iff_of_nodup hnd' hnd).mpr fun a => ?_
  rw [List.mem_flatMap]
  constructor
  · rintro ⟨i, -, ha⟩
    exact (mem_chainAt.mp ha).1
  · intro ha
    obtain ⟨i, hi, heq⟩ := hhome a ha
    exact ⟨i, List.mem_range.mpr hi, mem_chainAt.mpr ⟨ha, heq⟩⟩

/-- The entries of all chains, bucket by bucket. -/
def entries (m : Map K V) (chains : ℕ → List ℕ) : List ℕ :=
  (List.range m.capacity.toNat).flatMap chains

/-- The chains of a table: each ends, is counted, and has entries whose hash leads to its
bucket. -/
structure Chained (hasher : K → Size) (m : Map K V) (chains : ℕ → List ℕ) : Prop where
  size : m.buckets.length = m.capacity.toNat
  pos : 0 < m.capacity.toNat
  holds : ∀ i (b : Bucket), m.buckets[i]? = some b → b.Holds m.heap (chains i)
  home : ∀ i < m.capacity.toNat, ∀ a ∈ chains i, home hasher m.capacity m.heap a = some i
  count : m.nItems.toNat = (m.entries chains).length

end

section
variable {hasher : K → Size} {m : Map K V} {chains : ℕ → List ℕ}

theorem stored_of_home {capacity : Size} {heap : Heap (Entry K V)} {a i : ℕ}
    (h : home hasher capacity heap a = some i) : Stored heap a := by
  obtain ⟨key, hkey, -⟩ := Option.map_eq_some_iff.mp h
  obtain ⟨value, hp⟩ := keyOf_eq_some hkey
  exact ⟨_, hp⟩

theorem Chained.bucket (h : m.Chained hasher chains) {i : ℕ} (hi : i < m.capacity.toNat) :
    ∃ b, m.buckets[i]? = some b := by
  rw [← h.size] at hi
  exact ⟨_, List.getElem?_eq_getElem hi⟩

theorem Chained.chain_nodup (h : m.Chained hasher chains) {i : ℕ}
    (hi : i < m.capacity.toNat) : (chains i).Nodup := by
  obtain ⟨b, hb⟩ := h.bucket hi
  exact (h.holds i b hb).chain.nodup

/-- No entry is in two chains. -/
theorem Chained.nodup_flatMap (h : m.Chained hasher chains) {is : List ℕ} (his : is.Nodup)
    (hlt : ∀ i ∈ is, i < m.capacity.toNat) : (is.flatMap chains).Nodup := by
  refine List.nodup_flatMap.mpr ⟨fun i hi => h.chain_nodup (hlt i hi), ?_⟩
  refine his.imp_of_mem fun {i j} hi hj hne => ?_
  intro x hxi hxj
  have hhome := h.home i (hlt i hi) x hxi
  rw [h.home j (hlt j hj) x hxj] at hhome
  exact hne (Option.some.inj hhome).symm

theorem Chained.stored (h : m.Chained hasher chains) {is : List ℕ}
    (hlt : ∀ i ∈ is, i < m.capacity.toNat) : ∀ a ∈ is.flatMap chains, Stored m.heap a := by
  intro a ha
  obtain ⟨i, hi, ha⟩ := List.mem_flatMap.mp ha
  exact stored_of_home (h.home i (hlt i hi) a ha)

/-- **The resize loops** move all entries into the new table. -/
theorem Chained.relink (h : m.Chained hasher chains) (newCapacity : Size)
    (hpos : 0 < newCapacity.toNat) :
    ∃ s, (List.range m.capacity.toNat).foldlM (relinkBucket hasher newCapacity m.buckets)
        { heap := m.heap, newBuckets := List.replicate newCapacity.toNat {} } = some s ∧
      Relinked hasher newCapacity m.heap (m.entries chains) s := by
  have hinit : Relinked hasher newCapacity m.heap []
      { heap := m.heap, newBuckets := List.replicate newCapacity.toNat {} } := by
    refine ⟨rfl, fun _ _ => rfl, List.length_replicate, fun j b hb => ?_⟩
    rw [List.eq_of_mem_replicate (List.mem_of_getElem? hb)]
    exact ⟨rfl, rfl⟩
  refine foldlM_total (fun done s => Relinked hasher newCapacity m.heap
    (done.flatMap chains) s) ?_ hinit
  intro done i todo s hrange hs
  rw [List.append_cons] at hrange
  have hlt : ∀ k ∈ done ++ [i], k < m.capacity.toNat := by
    intro k hk
    rw [← List.mem_range, hrange]
    exact List.mem_append_left _ hk
  have hi : i < m.capacity.toNat :=
    hlt i (List.mem_append_right _ (List.mem_singleton_self i))
  have hnd : (done ++ [i]).Nodup := by
    have hrange' := List.nodup_range (n := m.capacity.toNat)
    rw [hrange] at hrange'
    exact hrange'.sublist (List.sublist_append_left _ _)
  obtain ⟨b, hb⟩ := h.bucket hi
  have hflat : done.flatMap chains ++ chains i = (done ++ [i]).flatMap chains := by
    simp
  have hnd' := h.nodup_flatMap hnd hlt
  have hst := h.stored hlt
  have hlen : ((done ++ [i]).flatMap chains).length < 2 ^ 64 := by
    have hcount := h.count
    rw [entries, hrange, List.flatMap_append, List.length_append] at hcount
    have hword := m.nItems.isLt
    omega
  rw [← hflat] at hnd' hst hlen
  have hchain : Chain (next s.heap) b.first (chains i) := by
    refine (h.holds i b hb).chain.congr fun x hx => hs.rest x fun hxd => ?_
    exact (List.nodup_append.mp hnd').2.2 x hxd x hx rfl
  have hchainlen : (chains i).length < walkFuel s.heap := by
    refine length_lt_walkFuel (h.chain_nodup hi) fun x hx => ?_
    rw [Stored, hs.payload]
    exact stored_of_home (h.home i hi x hx)
  obtain ⟨s', hs', hrel⟩ := hs.moveChain hchain hpos hnd' hst hlen hchainlen
  refine ⟨s', by simp [relinkBucket, hb, hs'], ?_⟩
  rw [← hflat]
  exact hrel

theorem toNat_double {capacity : Size} (h : capacity.toNat < 2 ^ 63) :
    (capacity <<< 1).toNat = 2 * capacity.toNat := by
  rw [BitVec.toNat_shiftLeft, Nat.shiftLeft_eq, Nat.mod_eq_of_lt (by omega)]
  omega

theorem Chained.performResize (h : m.Chained hasher chains) {fl : Rounding}
    (hresize : m.resizeRequired fl = true) (hcap : m.capacity.toNat < 2 ^ 63) :
    ∃ s, m.performResizeIfRequired fl hasher = some { m with
        capacity := m.capacity <<< 1, buckets := s.newBuckets, heap := s.heap } ∧
      Relinked hasher (m.capacity <<< 1) m.heap (m.entries chains) s := by
  have hpos := h.pos
  obtain ⟨s, hs, hrel⟩ := h.relink (m.capacity <<< 1) (by rw [toNat_double hcap]; omega)
  refine ⟨s, ?_, hrel⟩
  simp only [Map.performResizeIfRequired, hresize, if_true, hs]
  rfl

theorem Relinked.home {newCapacity : Size} {moved : List ℕ} {s : Relink K V}
    (h : Relinked hasher newCapacity m.heap moved s) :
    home hasher newCapacity s.heap = Map.home hasher newCapacity m.heap := by
  funext a
  rw [Map.home, Map.home, keyOf, keyOf, h.payload]

end

/-- The entries in the order in which a resize moves them. -/
def relinkOrder (hasher : K → Size) (m : Map K V) (nodes : List ℕ) : List ℕ :=
  (List.range m.capacity.toNat).flatMap (m.chainOf hasher nodes)

section
variable {hasher : K → Size} {m : Map K V} {nodes : List ℕ}

/-- Every entry moves, once. -/
theorem WF.relinkOrder_perm (h : m.WF hasher nodes) :
    (m.relinkOrder hasher nodes).Perm nodes := by
  refine flatMap_chainAt_perm h.nodup fun a ha => ?_
  obtain ⟨e, -, -, hkey⟩ := (h.stored a ha).cell
  exact ⟨_, bucketIndex_lt h.pos e.key, home_of_key hkey⟩

theorem WF.chained (h : m.WF hasher nodes) : m.Chained hasher (m.chainOf hasher nodes) := by
  refine ⟨h.size, h.pos, h.holds, fun i _ a ha => (mem_chainAt.mp ha).2, ?_⟩
  rw [h.count]
  exact h.relinkOrder_perm.length_eq.symm

/-- At most `2 ^ 60` items exceed the load factor of fewer than `2 ^ 61` buckets only,
however the division rounds: doubling the capacity does not overflow. -/
theorem capacity_lt_of_resizeRequired {fl : Rounding} (h : m.resizeRequired fl = true)
    (hitems : m.nItems.toNat ≤ 2 ^ 60) : m.capacity.toNat < 2 ^ 61 := by
  by_contra hge
  have hexceeded : maxLoadFactor <
      fl.round (fl.round m.nItems.toNat / fl.round m.capacity.toNat) := by
    simp only [resizeRequired, Bool.and_eq_true, decide_eq_true_eq] at h
    exact h.1
  have hzpow : ∀ k : ℕ, fl.round ((2 ^ k : ℕ) : ℚ) = 2 ^ k := by
    intro k
    have := fl.zpow k
    push_cast
    exact_mod_cast this
  have hn : fl.round m.nItems.toNat ≤ 2 ^ 60 := by
    rw [← hzpow]
    exact fl.mono (by positivity) (by exact_mod_cast hitems)
  have hc : 2 ^ 61 ≤ fl.round m.capacity.toNat := by
    rw [← hzpow]
    exact fl.mono (by positivity) (by exact_mod_cast (not_lt.mp hge))
  have hnonneg : 0 ≤ fl.round m.nItems.toNat := fl.nonneg (by positivity)
  have hquot : fl.round m.nItems.toNat / fl.round m.capacity.toNat ≤ 2 ^ (-1 : ℤ) := by
    calc fl.round m.nItems.toNat / fl.round m.capacity.toNat
        ≤ 2 ^ 60 / 2 ^ 61 := by gcongr
      _ = 2 ^ (-1 : ℤ) := by norm_num
  have hround := fl.mono (by positivity) hquot
  rw [fl.zpow] at hround
  apply absurd (hexceeded.trans_le hround)
  norm_num [maxLoadFactor]

/-- **A resize keeps the table well formed**, with the same entries. -/
theorem WF.performResizeIfRequired (h : m.WF hasher nodes) (fl : Rounding)
    (hsmall : nodes.length ≤ 2 ^ 60) :
    ∃ m' nodes', m.performResizeIfRequired fl hasher = some m' ∧ m'.WF hasher nodes' ∧
      nodes'.Perm nodes ∧ payload m'.heap = payload m.heap := by
  by_cases hresize : m.resizeRequired fl = true
  · have hcap := capacity_lt_of_resizeRequired hresize (by rw [h.count]; exact hsmall)
    have hpos := h.pos
    have hnew : (m.capacity <<< 1).toNat = 2 * m.capacity.toNat := toNat_double (by omega)
    obtain ⟨s, hs, hrel⟩ := h.chained.performResize hresize (by omega)
    have hperm := h.relinkOrder_perm
    have hkey : keyOf s.heap = keyOf m.heap := by
      funext a
      rw [keyOf, keyOf, hrel.payload]
    refine ⟨_, m.relinkOrder hasher nodes, hs, ?_, hperm, hrel.payload⟩
    refine ⟨hrel.size, ?_, fun a ha => ?_, ?_, fun j b hb => ?_, ?_⟩
    · show 0 < (m.capacity <<< 1).toNat
      omega
    · show Stored s.heap a
      rw [Stored, hrel.payload]
      exact h.stored a (hperm.mem_iff.mp ha)
    · show ((m.relinkOrder hasher nodes).map (keyOf s.heap)).Nodup
      rw [hkey]
      exact (hperm.map _).nodup_iff.mpr h.distinct
    · show b.Holds s.heap (chainAt (home hasher (m.capacity <<< 1) s.heap) _ j)
      rw [hrel.home]
      exact hrel.holds j b hb
    · show m.nItems.toNat = (m.relinkOrder hasher nodes).length
      rw [hperm.length_eq]
      exact h.count
  · exact ⟨m, nodes, by simp [Map.performResizeIfRequired, hresize], h, List.Perm.refl _, rfl⟩

end

/-! ## What a resize leaves -/

/-- A table in memory: its buckets, a pointer and a count each, are one array. -/
structure InMemory (hasher : K → Size) (m : Map K V) (chains : ℕ → List ℕ) : Prop
    extends Chained hasher m chains where
  array : 16 * m.buckets.length < 2 ^ 64

/-- The table has twice the buckets, and the same entries in chains that keep their order. -/
structure Resized (hasher : K → Size) (m : Map K V) (chains : ℕ → List ℕ) (m' : Map K V)
    (chains' : ℕ → List ℕ) : Prop where
  capacity : m'.capacity.toNat = 2 * m.capacity.toNat
  size : m'.buckets.length = 2 * m.capacity.toNat
  /-- The chains end, and the counts are their lengths. -/
  holds : ∀ j (b : Bucket), m'.buckets[j]? = some b → b.Holds m'.heap (chains' j)
  acyclic : ∀ j < 2 * m.capacity.toNat, (chains' j).Nodup
  /-- An entry is in the chain of its hash, and in no other. -/
  placed : ∀ a ∈ m.entries chains, ∀ key, keyOf m.heap a = some key →
    ∀ j < 2 * m.capacity.toNat,
      (a ∈ chains' j ↔ j = (hasher key &&& (2 * m.capacity - 1)).toNat)
  /-- No entry is lost or added. -/
  entries : (m'.entries chains').Perm (m.entries chains)
  payload : payload m'.heap = payload m.heap
  nItems : m'.nItems = m.nItems
  /-- Of two entries that share the old and the new chain the same one is ahead. -/
  order : ∀ i < m.capacity.toNat, ∀ j < 2 * m.capacity.toNat, ∀ a ∈ chains' j, ∀ c ∈ chains' j,
    [a, c].Sublist (chains i) → [a, c].Sublist (chains' j)

section
variable {hasher : K → Size} {m : Map K V} {chains : ℕ → List ℕ}

theorem Chained.nodup_entries (h : m.Chained hasher chains) : (m.entries chains).Nodup :=
  h.nodup_flatMap List.nodup_range fun _ hi => List.mem_range.mp hi

theorem Chained.stored_entries (h : m.Chained hasher chains) :
    ∀ a ∈ m.entries chains, Stored m.heap a :=
  h.stored fun _ hi => List.mem_range.mp hi

theorem sublist_entries {i : ℕ} (hi : i < m.capacity.toNat) :
    (chains i).Sublist (m.entries chains) := by
  obtain ⟨l₁, l₂, hsplit⟩ := List.append_of_mem (List.mem_range.mpr hi)
  rw [entries, hsplit, List.flatMap_append, List.flatMap_cons]
  exact (List.sublist_append_left _ _).trans (List.sublist_append_right _ _)

/-- **Entries that stay together keep their order.** -/
theorem order_of_chainAt {home : ℕ → Option ℕ} {i j a c : ℕ} (hi : i < m.capacity.toNat)
    (ha : a ∈ chainAt home (m.entries chains) j) (hc : c ∈ chainAt home (m.entries chains) j)
    (h : [a, c].Sublist (chains i)) : [a, c].Sublist (chainAt home (m.entries chains) j) := by
  have hkept : [a, c].filter (fun x => home x = some j) = [a, c] := by
    simp [(mem_chainAt.mp ha).2, (mem_chainAt.mp hc).2]
  rw [← hkept]
  exact (h.trans (sublist_entries hi)).filter _

/-- **A resize relinks every entry into the one chain of its hash**, whatever the hashes. -/
theorem InMemory.resized (h : m.InMemory hasher chains) {fl : Rounding}
    (hresize : m.resizeRequired fl = true) :
    ∃ m' chains', m.performResizeIfRequired fl hasher = some m' ∧
      m.Resized hasher chains m' chains' := by
  have hcap : m.capacity.toNat < 2 ^ 63 := by
    have harray := h.array
    rw [h.size] at harray
    omega
  have hnew := toNat_double hcap
  have hpos : 0 < (m.capacity <<< 1).toNat := by
    have hold := h.pos
    omega
  obtain ⟨s, hs, hrel⟩ := h.toChained.performResize hresize hcap
  have hhome : ∀ a ∈ m.entries chains,
      ∃ j < (m.capacity <<< 1).toNat, home hasher (m.capacity <<< 1) m.heap a = some j := by
    intro a ha
    obtain ⟨e, -, -, hkey⟩ := (h.stored_entries a ha).cell
    exact ⟨_, bucketIndex_lt hpos e.key, home_of_key hkey⟩
  refine ⟨_, chainAt (home hasher (m.capacity <<< 1) m.heap) (m.entries chains), hs, ?_⟩
  constructor
  case capacity => exact hnew
  case size => exact hrel.size.trans hnew
  case holds => exact hrel.holds
  case acyclic => exact fun j _ => h.nodup_entries.filter _
  case placed =>
    intro a ha key hkey j _
    have hmask : bucketIndex hasher (m.capacity <<< 1) key =
        (hasher key &&& (2 * m.capacity - 1)).toNat := by
      rw [bucketIndex, BitVec.shiftLeft_eq_mul_twoPow, BitVec.mul_comm]
      rfl
    rw [mem_chainAt, home_of_key hkey, hmask, Option.some.injEq, eq_comm]
    exact and_iff_right ha
  case entries => exact flatMap_chainAt_perm h.nodup_entries hhome
  case payload => exact hrel.payload
  case nItems => rfl
  case order => exact fun i hi j _ a ha c hc hac => order_of_chainAt hi ha hc hac

end

/-- Three entries behind one another in the only bucket. -/
def crowdedHeap : Heap (Entry ℕ ℕ) :=
  let heap := (Heap.empty.alloc { next := some 1, key := 4, value := 40 }).2
  let heap := (heap.alloc { next := some 2, key := 1, value := 10 }).2
  (heap.alloc { next := none, key := 2, value := 20 }).2

def crowded : Map ℕ ℕ where
  nItems := 3
  capacity := 1
  maxCapacity := 2
  buckets := [{ first := some 0, nItems := 3 }]
  heap := crowdedHeap

theorem crowded_inMemory :
    crowded.InMemory (BitVec.ofNat 64) fun i => if i = 0 then [0, 1, 2] else [] where
  size := rfl
  pos := by decide
  holds := by
    rintro (_ | i) b hb
    · obtain rfl := Option.some.inj hb
      exact ⟨⟨rfl, rfl, rfl, rfl⟩, rfl⟩
    · cases hb
  home := by
    intro i hi a ha
    obtain rfl : i = 0 := Nat.lt_one_iff.mp hi
    rcases List.mem_cons.mp ha with rfl | ha
    · rfl
    rcases List.mem_cons.mp ha with rfl | ha
    · rfl
    · rw [List.mem_singleton.mp ha]
      rfl
  count := rfl
  array := by decide

theorem crowded_resized :
    ∃ m' chains', crowded.performResizeIfRequired .exact (BitVec.ofNat 64) = some m' ∧
      crowded.Resized (BitVec.ofNat 64) (fun i => if i = 0 then [0, 1, 2] else []) m' chains' :=
  crowded_inMemory.resized (by decide +kernel)

end Coroutines.Map
