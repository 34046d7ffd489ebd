import Coroutines.Map.Bindings
import Coroutines.Map.LoadFactor
import Mathlib.Algebra.Order.BigOperators.Group.List

/-!
# The statistics of the table

`Map::stats` reads the counts of the buckets. They are the lengths of the chains, so what it
reports is what a walk along the chains would find. The average is a quotient of integers, and
the load factor is held at one half: until the table may not be doubled any more, the average
is zero, however long the longest chain is.
-/

namespace Coroutines.Map

open Links Loop

variable {K V : Type}

/-! ## The model -/

structure StatsResult where
  count : Size
  capacity : Size
  maxCapacity : Size
  loadFactor : ℚ
  minBucketDepth : Size
  maxBucketDepth : Size
  avgBucketDepth : Size

/-- The locals of the loop over the buckets. -/
structure Lengths where
  minLength : Size := BitVec.allOnes 64
  maxLength : Size := 0
  sumLength : Size := 0

def statsBody (buckets : List Bucket) (s : Lengths) (i : ℕ) : Option Lengths := do
  let bucket ← buckets[i]?
  some {
    minLength := if s.minLength < bucket.nItems then s.minLength else bucket.nItems
    maxLength := if bucket.nItems < s.maxLength then s.maxLength else bucket.nItems
    sumLength := s.sumLength + bucket.nItems }

/-- Without a bucket the average divides by zero, which is undefined. -/
def stats (fl : Rounding) (m : Map K V) : Option StatsResult := do
  let s ← (List.range m.capacity.toNat).foldlM (statsBody m.buckets) {}
  if m.capacity = 0 then none
  else some {
    count := m.nItems
    capacity := m.capacity
    maxCapacity := m.maxCapacity
    loadFactor := fl.round (fl.round m.nItems.toNat / fl.round m.capacity.toNat)
    minBucketDepth := s.minLength
    maxBucketDepth := s.maxLength
    avgBucketDepth := s.sumLength / m.capacity }

/-- Some bucket has a chain of this length. -/
def Depth (m : Map K V) (d : ℕ) : Prop :=
  ∃ (i : ℕ) (l : List ℕ) (b : Bucket), m.buckets[i]? = some b ∧
    Chain (next m.heap) b.first l ∧ l.length = d

/-! ## The loop over the buckets -/

/-- The locals of the loop measure the lengths `len` of the buckets `done`. -/
structure Lengths.Measures (len : ℕ → ℕ) (done : List ℕ) (s : Lengths) : Prop where
  least : ∀ n, n ≤ s.minLength.toNat ↔ n < 2 ^ 64 ∧ ∀ i ∈ done, n ≤ len i
  greatest : ∀ n, s.maxLength.toNat ≤ n ↔ ∀ i ∈ done, len i ≤ n
  sum : s.sumLength.toNat = (done.map len).sum

theorem measures_nil (len : ℕ → ℕ) : Lengths.Measures len [] {} := by
  constructor
  case least =>
    intro n
    have hmax : (BitVec.allOnes 64).toNat = 2 ^ 64 - 1 := rfl
    simp only [hmax, List.not_mem_nil, false_implies, implies_true, and_true]
    omega
  case greatest => simp
  case sum => rfl

/-- **One bucket more** is measured. -/
theorem Lengths.Measures.step {len : ℕ → ℕ} {done : List ℕ} {s : Lengths}
    (h : s.Measures len done) {buckets : List Bucket} {i : ℕ} {b : Bucket}
    (hb : buckets[i]? = some b) (hlen : b.nItems.toNat = len i)
    (hsum : ((done ++ [i]).map len).sum < 2 ^ 64) :
    ∃ s', statsBody buckets s i = some s' ∧ s'.Measures len (done ++ [i]) := by
  refine ⟨_, by rw [statsBody, hb]; rfl, ?_⟩
  have hall : ∀ P : ℕ → Prop, (∀ j ∈ done ++ [i], P j) ↔ (∀ j ∈ done, P j) ∧ P i := by
    intro P
    simp only [List.forall_mem_append, List.forall_mem_singleton]
  constructor
  case least =>
    intro n
    have hmin : n ≤ (if s.minLength < b.nItems then s.minLength else b.nItems).toNat ↔
        n ≤ s.minLength.toNat ∧ n ≤ len i := by
      rw [← hlen]
      split
      · rename_i hlt
        rw [BitVec.lt_def] at hlt
        omega
      · rename_i hge
        rw [BitVec.lt_def] at hge
        omega
    rw [hmin, h.least, hall, and_assoc]
  case greatest =>
    intro n
    have hmax : (if b.nItems < s.maxLength then s.maxLength else b.nItems).toNat ≤ n ↔
        s.maxLength.toNat ≤ n ∧ len i ≤ n := by
      rw [← hlen]
      split
      · rename_i hlt
        rw [BitVec.lt_def] at hlt
        omega
      · rename_i hge
        rw [BitVec.lt_def] at hge
        omega
    rw [hmax, h.greatest, hall]
  case sum =>
    rw [List.map_append, List.sum_append, List.map_singleton, List.sum_singleton, ← h.sum,
      ← hlen] at hsum
    show (s.sumLength + b.nItems).toNat = _
    rw [BitVec.toNat_add, Nat.mod_eq_of_lt hsum, List.map_append, List.sum_append,
      List.map_singleton, List.sum_singleton, h.sum, hlen]

/-- The least length is that of a bucket. -/
theorem Lengths.Measures.min_attained {len : ℕ → ℕ} {done : List ℕ} {s : Lengths}
    (h : s.Measures len done) (hne : done ≠ []) (hword : ∀ i ∈ done, len i < 2 ^ 64) :
    ∃ i ∈ done, len i = s.minLength.toNat := by
  by_contra hnone
  have hbelow := ((h.least _).mp le_rfl).2
  have habove : ∀ i ∈ done, s.minLength.toNat + 1 ≤ len i := fun i hi =>
    Nat.lt_of_le_of_ne (hbelow i hi) fun heq => hnone ⟨i, hi, heq.symm⟩
  obtain ⟨i, hi⟩ := List.exists_mem_of_ne_nil done hne
  have hlt := (habove i hi).trans_lt (hword i hi)
  exact Nat.not_succ_le_self _ ((h.least _).mpr ⟨hlt, habove⟩)

/-- The greatest length is that of a bucket. -/
theorem Lengths.Measures.max_attained {len : ℕ → ℕ} {done : List ℕ} {s : Lengths}
    (h : s.Measures len done) (hne : done ≠ []) : ∃ i ∈ done, len i = s.maxLength.toNat := by
  by_contra hnone
  have habove := (h.greatest _).mp le_rfl
  have hbelow : ∀ i ∈ done, len i < s.maxLength.toNat := fun i hi =>
    Nat.lt_of_le_of_ne (habove i hi) fun heq => hnone ⟨i, hi, heq⟩
  obtain ⟨i, hi⟩ := List.exists_mem_of_ne_nil done hne
  have hpos := hbelow i hi
  have hle := (h.greatest (s.maxLength.toNat - 1)).mpr fun j hj =>
    Nat.le_sub_one_of_lt (hbelow j hj)
  omega

/-! ## What is reported -/

section
variable {hasher : K → Size} {m : Map K V} {nodes : List ℕ}

theorem sum_length_chains (m : Map K V) (hasher : K → Size) (nodes : List ℕ) :
    ((List.range m.capacity.toNat).map fun i => (m.chainOf hasher nodes i).length).sum =
      (m.relinkOrder hasher nodes).length := by
  rw [relinkOrder, List.length_flatMap]

/-- **The loop measures the chains** of a well-formed table. -/
theorem WF.lengths (h : m.WF hasher nodes) :
    ∃ s : Lengths, (List.range m.capacity.toNat).foldlM (statsBody m.buckets) {} = some s ∧
      s.Measures (fun i => (m.chainOf hasher nodes i).length) (List.range m.capacity.toNat) := by
  refine foldlM_total
    (fun done (s : Lengths) => s.Measures (fun i => (m.chainOf hasher nodes i).length) done) ?_
    (measures_nil _)
  intro done i todo s hsplit hs
  have hi : i < m.buckets.length := by
    rw [h.size, ← List.mem_range, hsplit]
    simp
  have hb := List.getElem?_eq_getElem hi
  apply hs.step hb (h.holds i _ hb).nItems
  have htotal := sum_length_chains m hasher nodes
  rw [h.relinkOrder_perm.length_eq, ← h.count, hsplit, List.append_cons, List.map_append,
    List.sum_append] at htotal
  have hword := m.nItems.isLt
  omega

/-- The length of a chain is that of a bucket. -/
theorem WF.depth_iff (h : m.WF hasher nodes) {d : ℕ} :
    m.Depth d ↔ ∃ i ∈ List.range m.capacity.toNat, (m.chainOf hasher nodes i).length = d := by
  constructor
  · rintro ⟨i, l, b, hb, hchain, rfl⟩
    refine ⟨i, ?_, ?_⟩
    · rw [List.mem_range, ← h.size]
      exact (List.getElem?_eq_some_iff.mp hb).1
    · rw [(h.holds i b hb).chain.unique hchain]
  · rintro ⟨i, hi, rfl⟩
    rw [List.mem_range, ← h.size] at hi
    have hb := List.getElem?_eq_getElem hi
    exact ⟨i, _, _, hb, (h.holds i _ hb).chain, rfl⟩

/-- What the statistics of a table with `n` entries are. -/
structure StatsResult.Reports (fl : Rounding) (m : Map K V) (n : ℕ) (r : StatsResult) :
    Prop where
  count : r.count.toNat = n
  capacity : r.capacity = m.capacity
  maxCapacity : r.maxCapacity = m.maxCapacity
  loadFactor : r.loadFactor = fl.round (fl.round n / fl.round m.capacity.toNat)
  min : IsLeast {d | m.Depth d} r.minBucketDepth.toNat
  max : IsGreatest {d | m.Depth d} r.maxBucketDepth.toNat
  avg : r.avgBucketDepth.toNat = n / m.capacity.toNat
  min_le_avg : r.minBucketDepth ≤ r.avgBucketDepth
  avg_le_max : r.avgBucketDepth ≤ r.maxBucketDepth

/-- **The statistics of a well-formed table** are those of its chains. -/
theorem WF.stats (h : m.WF hasher nodes) (fl : Rounding) :
    ∃ r, m.stats fl = some r ∧ r.Reports fl m nodes.length := by
  obtain ⟨s, hs, hmeasures⟩ := h.lengths
  have hpos := h.pos
  have hne : m.capacity ≠ 0 := by
    intro hzero
    rw [hzero] at hpos
    exact Nat.lt_irrefl 0 hpos
  have hrange : List.range m.capacity.toNat ≠ [] := by
    rw [Ne, List.range_eq_nil]
    exact Nat.ne_of_gt hpos
  have hword : ∀ i ∈ List.range m.capacity.toNat, (m.chainOf hasher nodes i).length < 2 ^ 64 := by
    intro i _
    have hlength := List.length_filter_le (fun a => home hasher m.capacity m.heap a = some i) nodes
    have hcount := h.count ▸ m.nItems.isLt
    exact hlength.trans_lt hcount
  have hsum : s.sumLength.toNat = nodes.length := by
    rw [hmeasures.sum, sum_length_chains, h.relinkOrder_perm.length_eq]
  have hdiv : (s.sumLength / m.capacity).toNat = nodes.length / m.capacity.toNat := by
    rw [BitVec.toNat_udiv, hsum]
  have hbounds := hmeasures.sum
  rw [hsum] at hbounds
  refine ⟨_, by
    simp only [Map.stats, hs, Option.bind_eq_bind, Option.bind_some, if_neg hne]; rfl, ?_⟩
  constructor
  case count => exact h.count
  case capacity => rfl
  case maxCapacity => rfl
  case loadFactor => rw [h.count]
  case min =>
    refine ⟨h.depth_iff.mpr (hmeasures.min_attained hrange hword), fun d hd => ?_⟩
    obtain ⟨i, hi, rfl⟩ := h.depth_iff.mp hd
    exact ((hmeasures.least _).mp le_rfl).2 i hi
  case max =>
    refine ⟨h.depth_iff.mpr (hmeasures.max_attained hrange), fun d hd => ?_⟩
    obtain ⟨i, hi, rfl⟩ := h.depth_iff.mp hd
    exact (hmeasures.greatest _).mp le_rfl i hi
  case avg => exact hdiv
  case min_le_avg =>
    rw [BitVec.le_def, hdiv, Nat.le_div_iff_mul_le hpos, hbounds, Nat.mul_comm]
    have hle := List.card_nsmul_le_sum
      ((List.range m.capacity.toNat).map fun i => (m.chainOf hasher nodes i).length)
      s.minLength.toNat (by simpa using ((hmeasures.least _).mp le_rfl).2)
    simpa using hle
  case avg_le_max =>
    rw [BitVec.le_def, hdiv]
    apply Nat.div_le_of_le_mul
    rw [hbounds]
    have hle := List.sum_le_card_nsmul
      ((List.range m.capacity.toNat).map fun i => (m.chainOf hasher nodes i).length)
      s.maxLength.toNat (by simpa using (hmeasures.greatest _).mp le_rfl)
    simpa using hle

end

/-! ## Whole runs -/

section
variable [DecidableEq K] [ValueType V] {hasher : K → Size} {m m' : Map K V} {nodes nodes' : List ℕ}
  {t : Bindings K V}

theorem call_counted {fl : Rounding} {op : Op K V} {reply : Reply K V}
    (h : m.call fl hasher op = some (m', reply)) : Counted fl hasher m m' := by
  cases op with
  | insert key value =>
      obtain ⟨⟨m₁, r⟩, hinsert, hret⟩ := Option.bind_eq_some_iff.mp h
      obtain rfl : m₁ = m' := congrArg Prod.fst (Option.some.inj hret)
      exact insert_counted hinsert
  | update key value =>
      obtain ⟨⟨m₁, r⟩, hupdate, hret⟩ := Option.bind_eq_some_iff.mp h
      obtain rfl : m₁ = m' := congrArg Prod.fst (Option.some.inj hret)
      exact update_counted hupdate
  | lookup key =>
      obtain ⟨r, -, hrest⟩ := Option.bind_eq_some_iff.mp h
      obtain ⟨entry, -, hret⟩ := Option.bind_eq_some_iff.mp hrest
      obtain rfl : m = m' := congrArg Prod.fst (Option.some.inj hret)
      exact .same rfl rfl rfl
  | count =>
      obtain rfl : m = m' := congrArg Prod.fst (Option.some.inj h)
      exact .same rfl rfl rfl

/-- **The load factor is kept by every call**, removals included. -/
theorem Realizes.loadBounded (h : m.Realizes hasher nodes t) {request : Request K V}
    (hadmits : t.Admits hasher request) (hbound : m.LoadBounded) {answer : Answer K V}
    (hserve : m.serve .exact hasher request = some (m', answer))
    (h' : m'.Realizes hasher nodes' (t.serve .exact request).1) : m'.LoadBounded := by
  have hitems : m.nItems.toNat = t.entries.length := by rw [h.wf.count, h.length_entries]
  cases request with
  | call op =>
      obtain ⟨⟨m₁, reply⟩, hcall, hret⟩ := Option.bind_eq_some_iff.mp hserve
      obtain rfl : m₁ = m' := congrArg Prod.fst (Option.some.inj hret)
      exact (call_counted hcall).loadBounded hbound (hitems ▸ hadmits.1) h.wf.pos
  | remove key =>
      have hless : (t.erase key).entries.length ≤ t.entries.length := List.length_filter_le _ _
      have hitems' : m'.nItems.toNat = (t.erase key).entries.length := by
        rw [h'.wf.count, ← h'.length_entries]
        rfl
      have hcapacity : m'.capacity = m.capacity := h'.capacity.trans h.capacity.symm
      have hmax : m'.maxCapacity = m.maxCapacity := h'.maxCapacity.trans h.maxCapacity.symm
      rw [LoadBounded, hcapacity, hmax, hitems']
      refine hbound.imp_left fun hhalf => ?_
      rw [hitems] at hhalf
      omega

theorem Realizes.serves_loadBounded (h : m.Realizes hasher nodes t) (hbound : m.LoadBounded)
    {requests : List (Request K V)} (horderly : t.Orderly .exact hasher requests) :
    ∃ m' nodes', m.serves .exact hasher requests = some (m', (t.serves .exact requests).2) ∧
      m'.Realizes hasher nodes' (t.serves .exact requests).1 ∧ m'.LoadBounded := by
  induction requests generalizing m nodes t with
  | nil => exact ⟨m, nodes, rfl, h, hbound⟩
  | cons request requests ih =>
      obtain ⟨hadmits, hrest⟩ := horderly
      obtain ⟨m₁, nodes₁, hm₁, h₁, -⟩ := h.serve .exact hadmits
      obtain ⟨m₂, nodes₂, hm₂, h₂, hbound₂⟩ := ih h₁ (h.loadBounded hadmits hbound hm₁ h₁) hrest
      exact ⟨m₂, nodes₂, by simp [Map.serves, hm₁, hm₂, Bindings.serves], h₂, hbound₂⟩

/-- **The statistics tell the truth.** After every orderly run, `stats`
returns the number of keys that are bound, and the least, the greatest and the integer average
length of the chains; the average lies between the other two. -/
theorem stats_reports (fl : Rounding) (hasher : K → Size) (maxCapacity : Size)
    (hmax : 2 ≤ maxCapacity.toNat) (m : Map K V) (hm : create maxCapacity = some m)
    (requests : List (Request K V)) (horderly : m.noBindings.Orderly fl hasher requests) :
    ∃ m' answers r, m.serves fl hasher requests = some (m', answers) ∧ m'.stats fl = some r ∧
      r.Reports fl m' (m.noBindings.serves fl requests).1.entries.length := by
  obtain ⟨m', nodes, hm', h, -⟩ := (create_realizes hasher hmax hm).serves horderly
  obtain ⟨r, hr, hreports⟩ := h.wf.stats fl
  rw [h.length_entries]
  exact ⟨m', _, r, hm', hr, hreports⟩

/-- Two keys in one of eight buckets, after a third was removed. -/
theorem stats_reports_two :
    ∃ m m' : Map ℕ ℕ, ∃ answers r, create 8 = some m ∧
      m.serves .exact (fun _ => 7) [.call (.insert 1 10), .call (.insert 2 20),
        .call (.insert 3 30), .remove 1] = some (m', answers) ∧
      m'.stats .exact = some r ∧ r.Reports .exact m' 2 := by
  obtain ⟨m, hm, -⟩ := create_represents (K := ℕ) (V := ℕ) (fun _ => 7)
    (show 2 ≤ (8 : Size).toNat by decide)
  have hbindings := noBindings_of_eight hm
  obtain ⟨m', answers, r, hm', hr, hreports⟩ := stats_reports .exact (fun _ => 7) 8 (by decide) m hm
    [.call (.insert 1 10), .call (.insert 2 20), .call (.insert 3 30), .remove 1]
    (by rw [hbindings]; decide +kernel)
  have htwo : (m.noBindings.serves .exact [.call (.insert 1 10), .call (.insert 2 20),
      .call (.insert 3 30), .remove 1]).1.entries.length = 2 := by
    rw [hbindings]
    decide +kernel
  rw [htwo] at hreports
  exact ⟨m, m', answers, r, hm, hm', hr, hreports⟩

/-- **The average depth says nothing while the table can grow.** With exact arithmetic, after every
orderly run: as long as the maximum capacity leaves room to double, the
reported load factor is at most one half, and the reported average depth is zero, whatever the
longest chain is. -/
theorem stats_avg_zero (hasher : K → Size) (maxCapacity : Size)
    (hmax : 2 ≤ maxCapacity.toNat) (m : Map K V) (hm : create maxCapacity = some m)
    (requests : List (Request K V)) (horderly : m.noBindings.Orderly .exact hasher requests)
    (hroom : 2 * (m.noBindings.serves .exact requests).1.capacity.toNat ≤
      (m.noBindings.serves .exact requests).1.maxCapacity.toNat) :
    ∃ m' answers r, m.serves .exact hasher requests = some (m', answers) ∧
      m'.stats .exact = some r ∧ r.loadFactor ≤ maxLoadFactor ∧ r.avgBucketDepth.toNat = 0 := by
  have hreach : Reachable .exact hasher m := .create hm
  have hcreated := hreach.loadBounded (create_maxCapacity hm ▸ hmax)
  obtain ⟨m', nodes, hm', h, hbound⟩ :=
    (create_realizes hasher hmax hm).serves_loadBounded hcreated horderly
  obtain ⟨r, hr, hreports⟩ := h.wf.stats .exact
  rw [← h.capacity, ← h.maxCapacity] at hroom
  refine ⟨m', _, r, hm', hr, ?_⟩
  have hhalf : 2 * nodes.length ≤ m'.capacity.toNat := by
    rw [← h.wf.count]
    exact hbound.resolve_right (Nat.not_lt_of_le hroom)
  have hpos := h.wf.pos
  constructor
  · rw [hreports.loadFactor]
    by_contra hover
    exact Nat.not_lt_of_le hhalf ((maxLoadFactor_lt_iff hpos).mp (not_le.mp hover))
  · rw [hreports.avg, Nat.div_eq_of_lt (by omega)]

/-- Three keys in one of eight buckets, of at most sixteen. -/
theorem stats_avg_zero_three :
    ∃ m m' : Map ℕ ℕ, ∃ answers r, create 16 = some m ∧
      m.serves .exact (fun _ => 7) [.call (.insert 1 10), .call (.insert 2 20),
        .call (.insert 3 30)] = some (m', answers) ∧
      m'.stats .exact = some r ∧ r.loadFactor ≤ maxLoadFactor ∧ r.avgBucketDepth.toNat = 0 := by
  obtain ⟨m, hm, -⟩ := create_represents (K := ℕ) (V := ℕ) (fun _ => 7)
    (show 2 ≤ (16 : Size).toNat by decide)
  have hbindings : m.noBindings = { capacity := 8, maxCapacity := 16 } := by
    rw [← Option.some.inj hm]
    exact congrArg (fun c => Bindings.mk c 16 []) (by decide)
  obtain ⟨m', answers, r, hm', hr, havg⟩ := stats_avg_zero (fun _ => 7) 16 (by decide) m hm
    [.call (.insert 1 10), .call (.insert 2 20), .call (.insert 3 30)]
    (by rw [hbindings]; decide +kernel) (by rw [hbindings]; decide +kernel)
  exact ⟨m, m', answers, r, hm, hm', hr, havg⟩

end

end Coroutines.Map
