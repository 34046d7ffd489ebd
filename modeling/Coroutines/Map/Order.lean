import Coroutines.Map.Capacity

/-!
# A resize keeps the order of the entries

The entries of a new chain come from one old chain only, and are moved in their order. So a list
that has every chain in its order still does after a resize.
-/

namespace Coroutines.Map

variable {K V : Type} {hasher : K → Size} {m : Map K V} {nodes : List ℕ}

/-- The mask is a remainder, while the capacity is a power of two. -/
theorem bucketIndex_eq_mod {capacity : Size} {k : ℕ} (h : capacity.toNat = 2 ^ k) (key : K) :
    bucketIndex hasher capacity key = (hasher key).toNat % capacity.toNat := by
  have hpred : (capacity - 1).toNat = 2 ^ k - 1 := by
    rw [BitVec.toNat_sub_of_le, h]
    · rfl
    · rw [BitVec.le_def, h]
      exact Nat.two_pow_pos k
  rw [bucketIndex, BitVec.toNat_and, hpred, Nat.and_two_pow_sub_one_eq_mod, h]

/-- An entry that goes to the new bucket `j` comes from one old bucket. -/
theorem home_of_home_double {capacity : Size} {k : ℕ} (h : capacity.toNat = 2 ^ k)
    (hdouble : (capacity <<< 1).toNat = 2 * capacity.toNat) {heap : Heap (Entry K V)} {a j : ℕ}
    (ha : home hasher (capacity <<< 1) heap a = some j) :
    home hasher capacity heap a = some (j % capacity.toNat) := by
  obtain ⟨key, hkey, rfl⟩ := Option.map_eq_some_iff.mp ha
  have hpow : (capacity <<< 1).toNat = 2 ^ (k + 1) := by
    rw [hdouble, h, Nat.pow_succ, Nat.mul_comm]
  rw [home_of_key hkey, bucketIndex_eq_mod h, bucketIndex_eq_mod hpow, hdouble,
    Nat.mod_mul_left_mod]

/-- The entries of a new chain were moved in the order of the whole list. -/
theorem chainAt_relinkOrder {home' : ℕ → Option ℕ} {j : ℕ} (hpos : 0 < m.capacity.toNat)
    (hsource : ∀ a, home' a = some j →
      home hasher m.capacity m.heap a = some (j % m.capacity.toNat)) :
    chainAt home' (m.relinkOrder hasher nodes) j = chainAt home' nodes j := by
  rw [relinkOrder, chainAt, List.filter_flatMap, Loop.flatMap_range_eq (Nat.mod_lt j hpos)]
  · rw [chainOf, chainAt, chainAt, List.filter_filter]
    refine List.filter_congr fun a _ => ?_
    by_cases ha : home' a = some j
    · simp [ha, hsource a ha]
    · simp [ha]
  · intro i hi
    rw [chainOf, chainAt, List.filter_filter, List.filter_eq_nil_iff]
    intro a _ ha
    simp only [Bool.and_eq_true, decide_eq_true_eq] at ha
    rw [hsource a ha.1] at ha
    exact hi (Option.some.inj ha.2).symm

/-- **A resize keeps the order of the entries** along every chain. -/
theorem WF.resize_in_order (h : m.WF hasher nodes) (hpow : ∃ k, m.capacity.toNat = 2 ^ k)
    (fl : Rounding) (hsmall : nodes.length ≤ 2 ^ 60) :
    ∃ m', m.performResizeIfRequired fl hasher = some m' ∧ m'.WF hasher nodes ∧
      payload m'.heap = payload m.heap := by
  by_cases hresize : m.resizeRequired fl = true
  · obtain ⟨k, hk⟩ := hpow
    have hitems : m.nItems.toNat ≤ 2 ^ 60 := by
      rw [h.count]
      exact hsmall
    have hdouble := toNat_double_of_resizeRequired hresize hitems
    have hcap := capacity_lt_of_resizeRequired hresize hitems
    obtain ⟨s, hs, hrel⟩ := h.chained.performResize hresize (by omega)
    refine ⟨_, hs, ?_, hrel.payload⟩
    constructor
    case size => exact hrel.size
    case pos =>
      show 0 < (m.capacity <<< 1).toNat
      rw [hdouble]
      exact Nat.mul_pos two_pos h.pos
    case stored =>
      intro a ha
      show Stored s.heap a
      rw [Stored, hrel.payload]
      exact h.stored a ha
    case distinct =>
      have hkey : keyOf s.heap = keyOf m.heap := by
        funext a
        rw [keyOf, keyOf, hrel.payload]
      show (nodes.map (keyOf s.heap)).Nodup
      rw [hkey]
      exact h.distinct
    case holds =>
      intro j b hb
      have hholds := hrel.holds j b hb
      show b.Holds s.heap (chainAt (home hasher (m.capacity <<< 1) s.heap) nodes j)
      rw [hrel.home, ← chainAt_relinkOrder h.pos fun a ha => home_of_home_double hk hdouble ha]
      exact hholds
    case count => exact h.count
  · exact ⟨m, by simp [Map.performResizeIfRequired, hresize], h, rfl⟩

end Coroutines.Map
