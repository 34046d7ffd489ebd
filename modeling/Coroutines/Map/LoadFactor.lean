import Coroutines.Map.Capacity

/-!
# The load factor of the table

A call looks once, after it has added an entry, whether half as many entries as buckets are
exceeded, and doubles once. That is enough, from the first bucket on: one entry more is at most
twice as many, until the maximum capacity leaves no room to double.
-/

namespace Coroutines.Map

variable {K V : Type}

/-- The maximum load factor is kept, or the table cannot be doubled. -/
def LoadBounded (m : Map K V) : Prop :=
  2 * m.nItems.toNat ≤ m.capacity.toNat ∨ m.maxCapacity.toNat < 2 * m.capacity.toNat

/-- The comparison of the load factor, without rounding. -/
theorem maxLoadFactor_lt_iff {n c : ℕ} (hpos : 0 < c) :
    maxLoadFactor < (n : ℚ) / (c : ℚ) ↔ c < 2 * n := by
  have hc : (0 : ℚ) < c := by exact_mod_cast hpos
  rw [maxLoadFactor, div_lt_div_iff₀ two_pos hc, one_mul, mul_comm]
  exact_mod_cast Iff.rfl

theorem resizeRequired_exact {m : Map K V} (hpos : 0 < m.capacity.toNat) :
    m.resizeRequired .exact = true ↔
      m.capacity.toNat < 2 * m.nItems.toNat ∧ m.capacity <<< 1 ≤ m.maxCapacity := by
  simp only [resizeRequired, Bool.and_eq_true, decide_eq_true_eq]
  exact and_congr_left' (maxLoadFactor_lt_iff hpos)

/-- Without the room to double, twice the capacity is more than the maximum. -/
theorem max_lt_double {m : Map K V} (h : ¬ m.capacity <<< 1 ≤ m.maxCapacity) :
    m.maxCapacity.toNat < 2 * m.capacity.toNat := by
  have hlt : m.maxCapacity.toNat < (m.capacity <<< 1).toNat := Nat.lt_of_not_le h
  have hle : (m.capacity <<< 1).toNat ≤ 2 * m.capacity.toNat := by
    rw [BitVec.toNat_shiftLeft, Nat.shiftLeft_eq]
    exact (Nat.mod_le _ _).trans (Nat.mul_comm _ _).le
  exact hlt.trans_le hle

/-- **One doubling is enough.** After one entry more, the resize restores the load factor. -/
theorem LoadBounded.resize {hasher : K → Size} {m m' : Map K V} {n : ℕ}
    (hbound : 2 * n ≤ m.capacity.toNat ∨ m.maxCapacity.toNat < 2 * m.capacity.toNat)
    (hitems : m.nItems.toNat = n + 1) (hsmall : n < 2 ^ 60) (hpos : 0 < m.capacity.toNat)
    (h : m.performResizeIfRequired .exact hasher = some m') : m'.LoadBounded := by
  rcases performResizeIfRequired_cases h with ⟨hresize, rfl⟩ | ⟨hresize, hnew, hmax, hcapacity⟩
  · rw [Bool.eq_false_iff, Ne, resizeRequired_exact hpos, not_and_or] at hresize
    rcases hresize with hload | hroom
    · exact Or.inl (Nat.le_of_not_lt hload)
    · exact Or.inr (max_lt_double hroom)
  · have hdouble := toNat_double_of_resizeRequired hresize (hitems ▸ hsmall)
    rw [LoadBounded, hnew, hmax, hcapacity, hdouble, hitems]
    rcases hbound with hhalf | hlimit
    · refine Or.inl (Nat.mul_le_mul_left 2 ?_)
      -- `n + 1 ≤ 2 * n`, or the table was empty and there is a bucket for the first entry
      rcases n with _ | n
      · exact hpos
      · exact le_trans (by omega) hhalf
    · exact Or.inr (hlimit.trans_le (Nat.le_mul_of_pos_left _ two_pos))

theorem Counted.loadBounded {hasher : K → Size} {m m' : Map K V}
    (h : Counted .exact hasher m m') (hm : m.LoadBounded) (hsmall : m.nItems.toNat < 2 ^ 60)
    (hpos : 0 < m.capacity.toNat) : m'.LoadBounded := by
  cases h with
  | same hitems hcapacity hmax =>
      rw [LoadBounded, hitems, hcapacity, hmax]
      exact hm
  | added m₁ hresize hitems hcapacity hmax =>
      have hsucc : m₁.nItems.toNat = m.nItems.toNat + 1 := by
        rw [hitems]
        exact toNat_succ rfl (by omega)
      rw [LoadBounded, ← hcapacity, ← hmax] at hm
      rw [← hcapacity] at hpos
      exact LoadBounded.resize hm hsucc hsmall hpos hresize

variable [DecidableEq K] [ValueType V]

theorem Reachable.loadBounded {hasher : K → Size} {m : Map K V}
    (h : Reachable .exact hasher m) (hmax : 2 ≤ m.maxCapacity.toNat) : m.LoadBounded := by
  induction h with
  | @create maxCapacity m hm =>
      left
      rw [Map.create] at hm
      split at hm
      · cases hm
      · rw [← Option.some.inj hm]
        exact Nat.zero_le _
  | insert key value hreach hsmall hm' ih =>
      have hcounted := insert_counted hm'
      rw [(hcounted.grown hsmall).maxCapacity] at hmax
      obtain ⟨⟨nodes, s, hrep⟩, -⟩ := hreach.wellFormed hmax
      exact hcounted.loadBounded (ih hmax) hsmall hrep.wf.pos
  | update key value hreach hsmall hm' ih =>
      have hcounted := update_counted hm'
      rw [(hcounted.grown hsmall).maxCapacity] at hmax
      obtain ⟨⟨nodes, s, hrep⟩, -⟩ := hreach.wellFormed hmax
      exact hcounted.loadBounded (ih hmax) hsmall hrep.wf.pos

/-- **The load factor is restored by every call.** For every maximum capacity from two on, every
hasher, and every sequence of `insert` and `update` calls below `2 ^ 60` entries: the table has
at most half as many entries as buckets, or cannot be doubled within the maximum; and the next
call returns, with a table of which this is true again, where an `update` overwrites no value or
one whose destructor is trivial. -/
theorem load_factor_bounded (hasher : K → Size) (m : Map K V) (h : Reachable .exact hasher m)
    (hmax : 2 ≤ m.maxCapacity.toNat) :
    m.LoadBounded ∧ (m.nItems.toNat < 2 ^ 60 → ∀ key value,
      (∃ m' r, m.insert .exact hasher key value = some (m', r) ∧ m'.LoadBounded) ∧
      (ValueType.triviallyDestructible V = true ∨ m.lookup hasher key = some {} →
        ∃ m' r, m.update .exact hasher key value = some (m', r) ∧ m'.LoadBounded)) := by
  refine ⟨h.loadBounded hmax, fun hsmall key value => ?_⟩
  obtain ⟨⟨nodes, s, hrep⟩, -⟩ := h.wellFormed hmax
  have hlength : nodes.length < 2 ^ 60 := hrep.wf.count ▸ hsmall
  constructor
  · obtain ⟨m', r, -, hcall, -, -⟩ := hrep.insert .exact key value hlength
    exact ⟨m', r, hcall,
      (insert_counted hcall).loadBounded (h.loadBounded hmax) hsmall hrep.wf.pos⟩
  · intro hdefined
    rw [hrep.lookup_empty_iff] at hdefined
    obtain ⟨m', r, -, hcall, -, -⟩ := hrep.update hdefined .exact value hlength
    exact ⟨m', r, hcall,
      (update_counted hcall).loadBounded (h.loadBounded hmax) hsmall hrep.wf.pos⟩

/-- One entry in a table of at most three buckets, which starts with two. -/
theorem load_factor_bounded_three :
    ∃ m m' : Map ℕ ℕ, ∃ r, create 3 = some m ∧
      m.insert .exact (fun _ => 7) 1 10 = some (m', r) ∧ m'.LoadBounded := by
  obtain ⟨m, hm, hrep⟩ := create_represents (V := ℕ) (fun _ : ℕ => 7)
    (show 2 ≤ (3 : Size).toNat by decide)
  have hmax : 2 ≤ m.maxCapacity.toNat := by
    rw [create_maxCapacity hm]
    decide
  have hsmall : m.nItems.toNat < 2 ^ 60 := by
    rw [hrep.wf.count]
    decide
  obtain ⟨m', r, hcall, hbound⟩ :=
    ((load_factor_bounded _ m (.create hm) hmax).2 hsmall 1 10).1
  exact ⟨m, m', r, hm, hcall, hbound⟩

end Coroutines.Map
