import Coroutines.Map.Multilookup

/-!
# The capacity of the table

`bucket_index_for_key` masks the hash with `capacity - 1`, which is an index into the table
while the capacity is a power of two. The constructor makes it one, and every resize
doubles it; only the maximum capacity one, which the constructor lets through, is rounded
down to a table without buckets.
-/

namespace Coroutines.Map

variable {K V : Type}

/-- What the mask in `bucket_index_for_key` relies on. -/
structure CapacitySound (hasher : K → Size) (m : Map K V) : Prop where
  pow2 : ∃ k, m.capacity.toNat = 2 ^ k
  pos : 1 ≤ m.capacity.toNat
  le_max : m.capacity.toNat ≤ m.maxCapacity.toNat
  buckets : m.buckets.length = m.capacity.toNat
  index : ∀ key, m.bucketIndexForKey hasher key < m.capacity.toNat

/-! ## What a call does to the capacity -/

/-- The capacity stays, or it is doubled within the maximum and without overflow. -/
structure Grown (m m' : Map K V) : Prop where
  maxCapacity : m'.maxCapacity = m.maxCapacity
  capacity : m'.capacity = m.capacity ∨
    m'.capacity.toNat = 2 * m.capacity.toNat ∧ m'.capacity.toNat ≤ m.maxCapacity.toNat

/-- The resize leaves the table alone, or doubles its capacity. -/
theorem performResizeIfRequired_cases {fl : Rounding} {hasher : K → Size} {m m' : Map K V}
    (h : m.performResizeIfRequired fl hasher = some m') :
    m.resizeRequired fl = false ∧ m' = m ∨
      m.resizeRequired fl = true ∧ m'.nItems = m.nItems ∧ m'.maxCapacity = m.maxCapacity ∧
        m'.capacity = m.capacity <<< 1 := by
  by_cases hresize : m.resizeRequired fl = true
  · rw [Map.performResizeIfRequired, if_pos hresize] at h
    obtain ⟨s, -, hm⟩ := Option.bind_eq_some_iff.mp h
    obtain rfl := Option.some.inj hm
    exact Or.inr ⟨hresize, rfl, rfl, rfl⟩
  · rw [Map.performResizeIfRequired, if_neg hresize] at h
    exact Or.inl ⟨Bool.eq_false_iff.mpr hresize, (Option.some.inj h).symm⟩

/-- A capacity that is doubled does not overflow. -/
theorem toNat_double_of_resizeRequired {fl : Rounding} {m : Map K V}
    (h : m.resizeRequired fl = true) (hitems : m.nItems.toNat ≤ 2 ^ 60) :
    (m.capacity <<< 1).toNat = 2 * m.capacity.toNat := by
  apply toNat_double
  have hcap := capacity_lt_of_resizeRequired h hitems
  exact hcap.trans (by decide)

theorem performResizeIfRequired_grown {fl : Rounding} {hasher : K → Size} {m m' : Map K V}
    (h : m.performResizeIfRequired fl hasher = some m') (hitems : m.nItems.toNat ≤ 2 ^ 60) :
    Grown m m' := by
  rcases performResizeIfRequired_cases h with ⟨-, rfl⟩ | ⟨hresize, -, hmax, hcapacity⟩
  · exact ⟨rfl, Or.inl rfl⟩
  · have hnew := toNat_double_of_resizeRequired hresize hitems
    have hle : (m.capacity <<< 1).toNat ≤ m.maxCapacity.toNat := by
      simp only [resizeRequired, Bool.and_eq_true, decide_eq_true_eq] at hresize
      exact hresize.2
    rw [← hcapacity] at hnew hle
    exact ⟨hmax, Or.inr ⟨hnew, hle⟩⟩

/-- What a call does to the counts of the table: nothing, or one entry more and then the resize. -/
inductive Counted (fl : Rounding) (hasher : K → Size) (m m' : Map K V) : Prop
  | same (nItems : m'.nItems = m.nItems) (capacity : m'.capacity = m.capacity)
      (maxCapacity : m'.maxCapacity = m.maxCapacity)
  | added (m₁ : Map K V) (resize : m₁.performResizeIfRequired fl hasher = some m')
      (nItems : m₁.nItems = m.nItems + 1) (capacity : m₁.capacity = m.capacity)
      (maxCapacity : m₁.maxCapacity = m.maxCapacity)

section
variable {fl : Rounding} {hasher : K → Size} {m m' : Map K V} {key : K} {value : V}
  {index : ℕ} {b : Bucket} {r : InsertKVResult}

theorem insertFirst_counted (h : m.insertFirst fl hasher index b key value = some (m', r)) :
    Counted fl hasher m m' := by
  obtain ⟨m₁, hm₁, hret⟩ := Option.bind_eq_some_iff.mp h
  obtain rfl : m₁ = m' := congrArg Prod.fst (Option.some.inj hret)
  exact .added _ hm₁ rfl rfl rfl

theorem insertLast_counted {last : ℕ}
    (h : m.insertLast fl hasher index b last key value = some (m', r)) :
    Counted fl hasher m m' := by
  obtain ⟨heap, -, hrest⟩ := Option.bind_eq_some_iff.mp h
  obtain ⟨m₁, hm₁, hret⟩ := Option.bind_eq_some_iff.mp hrest
  obtain rfl : m₁ = m' := congrArg Prod.fst (Option.some.inj hret)
  exact .added _ hm₁ rfl rfl rfl

theorem nItems_succ_le (hsmall : m.nItems.toNat < 2 ^ 60) : (m.nItems + 1).toNat ≤ 2 ^ 60 := by
  rw [toNat_succ rfl (by omega)]
  exact hsmall

theorem Counted.grown (h : Counted fl hasher m m') (hsmall : m.nItems.toNat < 2 ^ 60) :
    Grown m m' := by
  cases h with
  | same _ hcapacity hmax => exact ⟨hmax, Or.inl hcapacity⟩
  | added m₁ hresize hitems hcapacity hmax =>
      have hgrown := performResizeIfRequired_grown hresize (hitems ▸ nItems_succ_le hsmall)
      refine ⟨hgrown.maxCapacity.trans hmax, ?_⟩
      rw [← hcapacity, ← hmax]
      exact hgrown.capacity

variable [DecidableEq K]

theorem insert_counted (h : m.insert fl hasher key value = some (m', r)) :
    Counted fl hasher m m' := by
  obtain ⟨b, -, hrest⟩ := Option.bind_eq_some_iff.mp h
  by_cases hzero : b.nItems = 0
  · rw [if_pos hzero] at hrest
    exact insertFirst_counted hrest
  · rw [if_neg hzero] at hrest
    obtain ⟨found, -, hend⟩ := Option.bind_eq_some_iff.mp hrest
    cases found with
    | hit entry =>
        obtain rfl : m = m' := congrArg Prod.fst (Option.some.inj hend)
        exact .same rfl rfl rfl
    | miss last => exact insertLast_counted hend

theorem update_counted [ValueType V] (h : m.update fl hasher key value = some (m', r)) :
    Counted fl hasher m m' := by
  obtain ⟨b, -, hrest⟩ := Option.bind_eq_some_iff.mp h
  by_cases hzero : b.nItems = 0
  · rw [if_pos hzero] at hrest
    exact insertFirst_counted hrest
  · rw [if_neg hzero] at hrest
    obtain ⟨found, -, hend⟩ := Option.bind_eq_some_iff.mp hrest
    cases found with
    | hit entry =>
        obtain ⟨heap, -, hret⟩ := Option.bind_eq_some_iff.mp hend
        obtain rfl : { m with heap := heap } = m' := congrArg Prod.fst (Option.some.inj hret)
        exact .same rfl rfl rfl
    | miss last => exact insertLast_counted hend

end

/-! ## Powers of two within the maximum -/

/-- The capacity is a power of two within the maximum. -/
def Pow2Within (m : Map K V) : Prop :=
  (∃ k, m.capacity.toNat = 2 ^ k) ∧ m.capacity.toNat ≤ m.maxCapacity.toNat

theorem Grown.pow2Within {m m' : Map K V} (h : Grown m m') (hm : m.Pow2Within) :
    m'.Pow2Within := by
  obtain ⟨⟨k, hk⟩, hle⟩ := hm
  rcases h.capacity with hsame | ⟨hdouble, hmax⟩
  · rw [Pow2Within, hsame, h.maxCapacity]
    exact ⟨⟨k, hk⟩, hle⟩
  · rw [Pow2Within, h.maxCapacity]
    refine ⟨⟨k + 1, ?_⟩, hmax⟩
    rw [hdouble, hk, Nat.pow_succ, Nat.mul_comm]

theorem create_pow2Within {maxCapacity : Size} (hmax : 2 ≤ maxCapacity.toNat) {m : Map K V}
    (h : create maxCapacity = some m) : m.Pow2Within := by
  have hne : maxCapacity ≠ 0 := by
    rintro rfl
    exact absurd hmax (by decide)
  rw [create, if_neg hne] at h
  obtain rfl := Option.some.inj h
  obtain ⟨k, hk, hlt⟩ := initCapacity_pow2 hmax
  exact ⟨⟨k, hk⟩, hk.trans_le hlt.le⟩

theorem create_maxCapacity {maxCapacity : Size} {m : Map K V}
    (h : Map.create maxCapacity = some m) : m.maxCapacity = maxCapacity := by
  rw [Map.create] at h
  split at h
  · cases h
  · rw [← Option.some.inj h]

variable [DecidableEq K]

/-- **A table that may have two buckets** is well formed, and its capacity a power of two
within the maximum, after any calls. -/
theorem Reachable.wellFormed [ValueType V] {fl : Rounding} {hasher : K → Size} {m : Map K V}
    (h : Reachable fl hasher m) (hmax : 2 ≤ m.maxCapacity.toNat) :
    (∃ nodes s, m.Represents hasher nodes s) ∧ m.Pow2Within := by
  induction h with
  | @create maxCapacity m hm =>
      rw [create_maxCapacity hm] at hmax
      obtain ⟨m', hm', hrep⟩ := create_represents (V := V) hasher hmax
      obtain rfl : m = m' := Option.some.inj (hm.symm.trans hm')
      exact ⟨⟨[], ∅, hrep⟩, create_pow2Within hmax hm⟩
  | insert key value _ hsmall hm' ih =>
      have hgrown := (insert_counted hm').grown hsmall
      rw [hgrown.maxCapacity] at hmax
      obtain ⟨⟨nodes, s, hrep⟩, hpow⟩ := ih hmax
      exact ⟨hrep.of_insert hsmall hm', hgrown.pow2Within hpow⟩
  | update key value _ hsmall hm' ih =>
      have hgrown := (update_counted hm').grown hsmall
      rw [hgrown.maxCapacity] at hmax
      obtain ⟨⟨nodes, s, hrep⟩, hpow⟩ := ih hmax
      exact ⟨hrep.of_update hsmall hm', hgrown.pow2Within hpow⟩

/-- **When the mask of the table is sound.** For every maximum capacity that the constructor
accepts, every hasher and every rounding of the load factor: whatever calls follow, with
fewer than `2 ^ 60` entries, the capacity is a power of two between one and the maximum, and
the index of every key is below it and within the table, if and only if the maximum is at
least two. -/
theorem capacity_sound_iff [ValueType V] (fl : Rounding) (hasher : K → Size) (maxCapacity : Size)
    (haccepted : maxCapacity ≠ 0) :
    (∀ m : Map K V, Reachable fl hasher m → m.maxCapacity = maxCapacity →
      m.CapacitySound hasher) ↔ 2 ≤ maxCapacity.toNat := by
  constructor
  case mp =>
    intro hsound
    by_contra hlt
    -- a maximum of one is rounded down to no buckets at all
    obtain rfl : maxCapacity = 1 := by
      apply BitVec.eq_of_toNat_eq
      have hpos : maxCapacity.toNat ≠ 0 := fun h0 => haccepted (BitVec.eq_of_toNat_eq h0)
      show maxCapacity.toNat = 1
      omega
    obtain ⟨m, hm⟩ : ∃ m : Map K V, create (1 : Size) = some m := ⟨_, rfl⟩
    have hpos := (hsound m (.create hm) (create_maxCapacity hm)).pos
    obtain rfl := Option.some.inj hm
    have hzero : (nextPowerOf2 (if (1 : Size) < defaultInitCapacity then 1
        else defaultInitCapacity) >>> 1).toNat = 0 := by decide
    exact absurd (hpos.trans hzero.le) (by decide)
  case mpr =>
    rintro hmax m hm rfl
    obtain ⟨⟨nodes, s, hrep⟩, hpow, hle⟩ := hm.wellFormed hmax
    exact {
      pow2 := hpow
      pos := hrep.wf.pos
      le_max := hle
      buckets := hrep.wf.size
      index := fun key => bucketIndex_lt hrep.wf.pos key }

/-- After one insertion into a table of at most two buckets. -/
theorem capacity_sound_iff_one_insertion :
    ∃ (m m' : Map ℕ ℕ) (r : InsertKVResult), create 2 = some m ∧
      m.insert .binary64 (fun _ => 7) 1 10 = some (m', r) ∧ m'.CapacitySound fun _ => 7 := by
  obtain ⟨m, hm, hrep⟩ := create_represents (V := ℕ) (fun _ : ℕ => 7)
    (show 2 ≤ (2 : Size).toNat by decide)
  obtain ⟨m', r, nodes, hins, -, -⟩ := hrep.insert .binary64 1 10 (by decide)
  have hsmall : m.nItems.toNat < 2 ^ 60 := by
    rw [hrep.wf.count]
    decide
  have hmax := ((insert_counted hins).grown hsmall).maxCapacity.trans (create_maxCapacity hm)
  exact ⟨m, m', r, hm, hins, (capacity_sound_iff .binary64 (fun _ => 7) 2 (by decide)).mpr
    (by decide) m' (.insert 1 10 (.create hm) hsmall hins) hmax⟩

/-- The constructor accepts the maximum capacity one, makes a table without buckets, and every
hash is its own index into it. -/
theorem no_buckets_at_max_capacity_one :
    ∃ m : Map ℕ ℕ, create 1 = some m ∧ m.capacity = 0 ∧ m.buckets = [] ∧
      m.bucketIndexForKey (fun _ => 7) 0 = 7 :=
  ⟨_, rfl, by decide, rfl, by decide⟩

end Coroutines.Map
