import Coroutines.Map.Insertion
import Coroutines.Map.PowerOfTwo
import Mathlib.Data.Finmap

/-!
# The map is a finite partial map

A client calls `insert`, `update`, `lookup` and `count` in any order on a map it has
constructed. What it sees is what a finite partial map would have answered, whatever the
hasher does and whenever the table grows; unless it updates a key that is bound, to a value of
a type whose destructor does something.
-/

namespace Coroutines.Map

open Links Loop
open Function (update_self update_of_ne)

variable {K V : Type}

/-! ## Calls and answers -/

inductive Op (K V : Type)
  | insert (key : K) (value : V)
  | update (key : K) (value : V)
  | lookup (key : K)
  | count

inductive Reply (K V : Type)
  | inserted (b : Bool)
  | updated (b : Bool)
  | found (entry : Option (K × V))
  | counted (n : ℕ)
deriving DecidableEq

/-- What a reference to an entry reads. An argument of a call is gone when it returns. -/
def readKey (m : Map K V) : Slot → Option K
  | .entryKey a => keyOf m.heap a
  | _ => none

def readValue (m : Map K V) : Slot → Option V
  | .entryValue a => (payload m.heap a).map Prod.snd
  | _ => none

/-- `get_key` and `get_value`, when the result converts to true. -/
def LookupKVResult.read (m : Map K V) (r : LookupKVResult) : Option (Option (K × V)) :=
  if r.key.isSome then do
    let key ← r.key.bind m.readKey
    let value ← r.value.bind m.readValue
    some (some (key, value))
  else some none

section
variable [DecidableEq K]

/-- One call of the client. -/
def call [ValueType V] (fl : Rounding) (hasher : K → Size) (m : Map K V) :
    Op K V → Option (Map K V × Reply K V)
  | .insert key value => do
      let (m, r) ← m.insert fl hasher key value
      some (m, .inserted r.inserted)
  | .update key value => do
      let (m, r) ← m.update fl hasher key value
      some (m, .updated r.inserted)
  | .lookup key => do
      let r ← m.lookup hasher key
      let entry ← r.read m
      some (m, .found entry)
  | .count => some (m, .counted m.count.toNat)

def calls [ValueType V] (fl : Rounding) (hasher : K → Size) (m : Map K V) :
    List (Op K V) → Option (Map K V × List (Reply K V))
  | [] => some (m, [])
  | op :: ops => do
      let (m, reply) ← m.call fl hasher op
      let (m, replies) ← m.calls fl hasher ops
      some (m, reply :: replies)

/-! ## The finite partial map -/

/-- One call, on a finite partial map. -/
def specCall (s : Finmap fun _ : K => V) : Op K V → (Finmap fun _ : K => V) × Reply K V
  | .insert key value =>
      match s.lookup key with
      | some _ => (s, .inserted false)
      | none => (s.insert key value, .inserted true)
  | .update key value => (s.insert key value, .updated true)
  | .lookup key => (s, .found ((s.lookup key).map fun value => (key, value)))
  | .count => (s, .counted s.keys.card)

def specCalls (s : Finmap fun _ : K => V) :
    List (Op K V) → (Finmap fun _ : K => V) × List (Reply K V)
  | [] => (s, [])
  | op :: ops =>
      let (t, reply) := specCall s op
      let (u, replies) := specCalls t ops
      (u, reply :: replies)

/-- The call updates a key that is bound. -/
def Rebinds (s : Finmap fun _ : K => V) : Op K V → Prop
  | .update key _ => key ∈ s
  | _ => False

/-- No call of the sequence does. -/
def NoRebind (s : Finmap fun _ : K => V) : List (Op K V) → Prop
  | [] => True
  | op :: ops => ¬ Rebinds s op ∧ NoRebind (specCall s op).1 ops

/-- A finite partial map never forgets a key here. -/
theorem specCall_keys (s : Finmap fun _ : K => V) (op : Op K V) :
    s.keys ⊆ (specCall s op).1.keys := by
  have hinsert : ∀ key value, s.keys ⊆ (s.insert key value).keys := by
    intro key value k hk
    rw [Finmap.mem_keys] at hk ⊢
    exact Finmap.mem_insert.mpr (Or.inr hk)
  rcases op with ⟨key, value⟩ | ⟨key, value⟩ | key | _
  · rw [specCall]
    split
    · exact Finset.Subset.refl _
    · exact hinsert key value
  · exact hinsert key value
  · exact Finset.Subset.refl _
  · exact Finset.Subset.refl _

theorem specCalls_keys (s : Finmap fun _ : K => V) (ops : List (Op K V)) :
    s.keys ⊆ (specCalls s ops).1.keys := by
  induction ops generalizing s with
  | nil => exact Finset.Subset.refl _
  | cons op ops ih => exact (specCall_keys s op).trans (ih _)

end

/-- The references of a lookup read the stored key and value. -/
theorem read_ofEntry {m : Map K V} {key : K} {a : ℕ} {value : V}
    (hp : payload m.heap a = some (key, value)) :
    (LookupKVResult.ofEntry a).read m = some (some (key, value)) := by
  simp [LookupKVResult.read, LookupKVResult.ofEntry, readKey, readValue, keyOf_of_payload hp, hp]

/-- Overwriting the value of an entry keeps the table well formed. -/
theorem WF.setValue {hasher : K → Size} {m : Map K V} {nodes : List ℕ} {key : K}
    (h : m.WF hasher nodes) {a : ℕ} (hk : keyOf m.heap a = some key) (value : V)
    {heap : Heap (Entry K V)} (hnext : next heap = next m.heap)
    (hpay : payload heap = Function.update (payload m.heap) a (some (key, value))) :
    WF hasher { m with heap := heap } nodes := by
  have hkey : keyOf heap = keyOf m.heap := by
    funext x
    rw [keyOf, hpay]
    by_cases hx : x = a
    · rw [hx, update_self, hk]
      rfl
    · rw [update_of_ne hx]
      rfl
  have hhome : home hasher m.capacity heap = home hasher m.capacity m.heap := by
    funext x
    rw [home, home, hkey]
  refine ⟨h.size, h.pos, fun x hx => ?_, ?_, fun i b hb => ?_, h.count⟩
  · show Stored heap x
    rw [Stored, hpay]
    by_cases hxa : x = a
    · rw [hxa, update_self]
      exact ⟨_, rfl⟩
    · rw [update_of_ne hxa]
      exact h.stored x hx
  · show (nodes.map (keyOf heap)).Nodup
    rw [hkey]
    exact h.distinct
  · have hold := h.holds i b hb
    show b.Holds heap (chainAt (home hasher m.capacity heap) nodes i)
    rw [hhome]
    exact ⟨by rw [hnext]; exact hold.chain, hold.nItems⟩

/-- The table holds the bindings of `s`. -/
structure Represents [DecidableEq K] (hasher : K → Size) (m : Map K V) (nodes : List ℕ)
    (s : Finmap fun _ : K => V) : Prop where
  wf : m.WF hasher nodes
  binds : ∀ key value, s.lookup key = some value ↔
    ∃ a ∈ nodes, payload m.heap a = some (key, value)

section
variable [DecidableEq K] {hasher : K → Size} {m : Map K V} {nodes : List ℕ}
  {s : Finmap fun _ : K => V} {key : K}

theorem Represents.lookup_none (h : m.Represents hasher nodes s) :
    s.lookup key = none ↔ ∀ a ∈ nodes, keyOf m.heap a ≠ some key := by
  constructor
  · intro hnone a ha hk
    obtain ⟨value, hp⟩ := keyOf_eq_some hk
    have hsome := (h.binds key value).mpr ⟨a, ha, hp⟩
    rw [hnone] at hsome
    cases hsome
  · intro habsent
    rcases hl : s.lookup key with _ | value
    · rfl
    · obtain ⟨a, ha, hp⟩ := (h.binds key value).mp hl
      exact absurd (keyOf_of_payload hp) (habsent a ha)

theorem Represents.lookup_some (h : m.Represents hasher nodes s) {a : ℕ} (ha : a ∈ nodes)
    (hk : keyOf m.heap a = some key) :
    ∃ value, payload m.heap a = some (key, value) ∧ s.lookup key = some value := by
  obtain ⟨value, hp⟩ := keyOf_eq_some hk
  exact ⟨value, hp, (h.binds key value).mpr ⟨a, ha, hp⟩⟩

/-- As many keys as entries. -/
theorem Represents.card (h : m.Represents hasher nodes s) :
    s.keys.card = nodes.length := by
  have hkeys : s.keys.map Function.Embedding.some = (nodes.map (keyOf m.heap)).toFinset := by
    ext o
    rw [List.mem_toFinset, List.mem_map, Finset.mem_map]
    constructor
    · rintro ⟨key, hkey, rfl⟩
      obtain ⟨value, hl⟩ := Finmap.mem_iff.mp (Finmap.mem_keys.mp hkey)
      obtain ⟨a, ha, hp⟩ := (h.binds key value).mp hl
      exact ⟨a, ha, keyOf_of_payload hp⟩
    · rintro ⟨a, ha, rfl⟩
      obtain ⟨e, -, -, hkey⟩ := (h.wf.stored a ha).cell
      obtain ⟨value, -, hl⟩ := h.lookup_some ha hkey
      exact ⟨e.key, Finmap.mem_keys.mpr (Finmap.mem_of_lookup_eq_some hl), hkey.symm⟩
  rw [← Finset.card_map Function.Embedding.some, hkeys,
    List.toFinset_card_of_nodup h.wf.distinct, List.length_map]

/-- No more entries than the calls bind in the end. -/
theorem Represents.length_lt (h : m.Represents hasher nodes s) {ops : List (Op K V)}
    (hsmall : (specCalls s ops).1.keys.card < 2 ^ 60) : nodes.length < 2 ^ 60 := by
  rw [← h.card]
  exact (Finset.card_le_card (specCalls_keys s ops)).trans_lt hsmall

/-! ## Looking up -/

/-- **Lookup** returns references to the entry with the key. -/
theorem WF.lookup_present (h : m.WF hasher nodes) {a : ℕ} (ha : a ∈ nodes)
    (hk : keyOf m.heap a = some key) : m.lookup hasher key = some (.ofEntry a) := by
  obtain ⟨b, hb, hne, hsearch⟩ := h.search_present ha hk
  simp only [Map.lookup, hb, Option.bind_eq_bind, Option.bind_some, if_neg hne, hsearch]

theorem WF.lookup_absent (h : m.WF hasher nodes)
    (habsent : ∀ a ∈ nodes, keyOf m.heap a ≠ some key) : m.lookup hasher key = some {} := by
  obtain ⟨b, hb, hzero | ⟨hne, z, hsearch, -⟩⟩ := h.search_absent habsent
  · simp only [Map.lookup, hb, Option.bind_eq_bind, Option.bind_some, if_pos hzero]
  · simp only [Map.lookup, hb, Option.bind_eq_bind, Option.bind_some, if_neg hne, hsearch]

theorem Represents.lookup (h : m.Represents hasher nodes s) (key : K) :
    ∃ r, m.lookup hasher key = some r ∧
      r.read m = some ((s.lookup key).map fun value => (key, value)) := by
  rcases hl : s.lookup key with _ | value
  · exact ⟨{}, h.wf.lookup_absent (h.lookup_none.mp hl), rfl⟩
  · obtain ⟨a, ha, hp⟩ := (h.binds key value).mp hl
    exact ⟨.ofEntry a, h.wf.lookup_present ha (keyOf_of_payload hp), read_ofEntry hp⟩

theorem Represents.lookup_empty_iff (h : m.Represents hasher nodes s) :
    m.lookup hasher key = some {} ↔ key ∉ s := by
  rcases hl : s.lookup key with _ | value
  · apply iff_of_true (h.wf.lookup_absent (h.lookup_none.mp hl))
    exact Finmap.lookup_eq_none.mp hl
  · obtain ⟨a, ha, hp⟩ := (h.binds key value).mp hl
    refine iff_of_false ?_ (not_not_intro (Finmap.mem_of_lookup_eq_some hl))
    rw [h.wf.lookup_present ha (keyOf_of_payload hp)]
    rintro ⟨⟩

/-! ## Inserting and updating -/

/-- **Adding an entry binds its key**, whether or not the table then grows. -/
theorem Represents.withEntry (h : m.Represents hasher nodes s) (fl : Rounding) {value : V}
    {b : Bucket} {a : ℕ} {heap : Heap (Entry K V)} {first : Option ℕ}
    (hb : m.buckets[m.bucketIndexForKey hasher key]? = some b)
    (habsent : ∀ x ∈ nodes, keyOf m.heap x ≠ some key)
    (hadd : Added hasher m nodes key value a heap first)
    (hsmall : nodes.length < 2 ^ 60) :
    ∃ m' nodes', (m.withEntry (m.bucketIndexForKey hasher key) b heap first
        ).performResizeIfRequired fl hasher = some m' ∧
      m'.Represents hasher nodes' (s.insert key value) := by
  have hwf := h.wf.withEntry hb habsent hadd (by omega)
  have hle : (nodes ++ [a]).length ≤ 2 ^ 60 := by
    rw [List.length_append]
    exact hsmall
  obtain ⟨m', nodes', hm', hwf', hperm, hpay⟩ := hwf.performResizeIfRequired fl hle
  refine ⟨m', nodes', hm', hwf', fun k v => ?_⟩
  have hpay' : payload m'.heap = Function.update (payload m.heap) a (some (key, value)) :=
    hpay.trans hadd.payload
  rw [hpay']
  have hna : ∀ x ∈ nodes, x ≠ a := hadd.ne_of_mem h.wf
  have hsplit : (∃ x ∈ nodes', Function.update (payload m.heap) a (some (key, value)) x =
        some (k, v)) ↔
      (key = k ∧ value = v) ∨ ∃ x ∈ nodes, payload m.heap x = some (k, v) := by
    constructor
    · rintro ⟨x, hx, hp⟩
      rcases List.mem_append.mp (hperm.mem_iff.mp hx) with hx | hx
      · rw [update_of_ne (hna x hx)] at hp
        exact Or.inr ⟨x, hx, hp⟩
      · rw [List.mem_singleton.mp hx, update_self] at hp
        cases hp
        exact Or.inl ⟨rfl, rfl⟩
    · rintro (⟨rfl, rfl⟩ | ⟨x, hx, hp⟩)
      · exact ⟨a, hperm.mem_iff.mpr (by simp), update_self _ _ _⟩
      · refine ⟨x, hperm.mem_iff.mpr (List.mem_append_left _ hx), ?_⟩
        rw [update_of_ne (hna x hx), hp]
  rw [hsplit]
  by_cases hk : k = key
  · subst hk
    rw [Finmap.lookup_insert]
    constructor
    · intro hv
      exact Or.inl ⟨rfl, Option.some.inj hv⟩
    · rintro (⟨-, rfl⟩ | ⟨x, hx, hp⟩)
      · rfl
      · exact absurd (keyOf_of_payload hp) (habsent x hx)
  · rw [Finmap.lookup_insert_of_ne _ hk, h.binds]
    constructor
    · exact Or.inr
    · rintro (⟨rfl, -⟩ | hx)
      · exact absurd rfl hk
      · exact hx

/-- **A key that is absent is inserted**, into an empty bucket or behind the last entry. -/
theorem WF.insert_absent (h : m.WF hasher nodes) (fl : Rounding) (value : V)
    (habsent : ∀ a ∈ nodes, keyOf m.heap a ≠ some key) :
    ∃ b a heap first, m.buckets[m.bucketIndexForKey hasher key]? = some b ∧
      Added hasher m nodes key value a heap first ∧
      m.insert fl hasher key value =
        ((m.withEntry (m.bucketIndexForKey hasher key) b heap first
          ).performResizeIfRequired fl hasher).map fun m' => (m', argResult) := by
  obtain ⟨b, hb, hzero | ⟨hne, z, hsearch, hlast⟩⟩ := h.search_absent habsent
  · obtain ⟨a, heap, hadd, heq⟩ := insertFirst_eq fl value (b := b) (h.absent_of_empty hb hzero).1
    refine ⟨b, a, heap, some a, hb, hadd, ?_⟩
    simp only [Map.insert, hb, Option.bind_eq_bind, Option.bind_some, if_pos hzero, heq]
  · obtain ⟨a, heap, hadd, heq⟩ := insertLast_eq h fl value hb hlast
    refine ⟨b, a, heap, b.first, hb, hadd, ?_⟩
    simp only [Map.insert, hb, Option.bind_eq_bind, Option.bind_some, if_neg hne, hsearch, heq]

theorem Represents.add (h : m.Represents hasher nodes s) (fl : Rounding) (value : V)
    (habsent : ∀ a ∈ nodes, keyOf m.heap a ≠ some key) (hsmall : nodes.length < 2 ^ 60) :
    ∃ m' nodes', m.insert fl hasher key value = some (m', argResult) ∧
      m'.Represents hasher nodes' (s.insert key value) := by
  obtain ⟨b, a, heap, first, hb, hadd, heq⟩ := h.wf.insert_absent fl value habsent
  obtain ⟨m', nodes', hm', hrep⟩ := h.withEntry fl hb habsent hadd hsmall
  exact ⟨m', nodes', by rw [heq, hm']; rfl, hrep⟩

theorem WF.insert_present (h : m.WF hasher nodes) (fl : Rounding) (value : V) {a : ℕ}
    (ha : a ∈ nodes) (hk : keyOf m.heap a = some key) :
    m.insert fl hasher key value =
      some (m, { key := .entryKey a, value := .entryValue a, inserted := false }) := by
  obtain ⟨b, hb, hne, hsearch⟩ := h.search_present ha hk
  simp only [Map.insert, hb, Option.bind_eq_bind, Option.bind_some, if_neg hne, hsearch]

/-- **Insert** binds a key that was absent, and leaves a key that was present alone. -/
theorem Represents.insert (h : m.Represents hasher nodes s) (fl : Rounding) (key : K)
    (value : V) (hsmall : nodes.length < 2 ^ 60) :
    ∃ m' r nodes', m.insert fl hasher key value = some (m', r) ∧
      (specCall s (.insert key value)).2 = .inserted r.inserted ∧
      m'.Represents hasher nodes' (specCall s (.insert key value)).1 := by
  rcases hl : s.lookup key with _ | old
  · obtain ⟨m', nodes', hm', hrep⟩ := h.add fl value (h.lookup_none.mp hl) hsmall
    refine ⟨m', argResult, nodes', hm', ?_, ?_⟩
    · simp only [specCall, hl]
      rfl
    · simpa only [specCall, hl] using hrep
  · obtain ⟨a, ha, hp⟩ := (h.binds key old).mp hl
    refine ⟨m, _, nodes, h.wf.insert_present fl value ha (keyOf_of_payload hp), ?_, ?_⟩
    · simp only [specCall, hl]
    · simpa only [specCall, hl] using h

/-- Overwriting the value of an entry rebinds its key. -/
theorem Represents.setValue (h : m.Represents hasher nodes s) {a : ℕ} (ha : a ∈ nodes)
    (hk : keyOf m.heap a = some key) (value : V) {heap : Heap (Entry K V)}
    (hnext : next heap = next m.heap)
    (hpay : payload heap = Function.update (payload m.heap) a (some (key, value))) :
    Map.Represents hasher { m with heap := heap } nodes (s.insert key value) := by
  refine ⟨h.wf.setValue hk value hnext hpay, fun k v => ?_⟩
  show _ ↔ ∃ x ∈ nodes, payload heap x = some (k, v)
  rw [hpay]
  by_cases hkk : k = key
  · subst hkk
    rw [Finmap.lookup_insert]
    constructor
    · intro hv
      exact ⟨a, ha, by rw [update_self, Option.some.inj hv]⟩
    · rintro ⟨x, hx, hp⟩
      -- the key is bound by one entry only
      have hxa : x = a := by
        by_contra hxa
        rw [update_of_ne hxa] at hp
        exact hxa (List.inj_on_of_nodup_map h.wf.distinct hx ha
          ((keyOf_of_payload hp).trans hk.symm))
      rw [hxa, update_self] at hp
      cases hp
      rfl
  · rw [Finmap.lookup_insert_of_ne _ hkk, h.binds]
    refine exists_congr fun x => and_congr_right fun hx => ?_
    by_cases hxa : x = a
    · subst hxa
      rw [update_self]
      constructor
      · intro hp
        rw [keyOf_of_payload hp] at hk
        exact absurd (Option.some.inj hk) hkk
      · intro hp
        cases hp
        exact absurd rfl hkk
    · rw [update_of_ne hxa]

section
variable [ValueType V]

/-- `update` overwrites the value of the entry, which stays where it is. -/
theorem WF.update_present (h : m.WF hasher nodes)
    (htrivial : ValueType.triviallyDestructible V = true) (fl : Rounding) (value : V) {a : ℕ}
    (ha : a ∈ nodes) (hk : keyOf m.heap a = some key) :
    ∃ heap, m.update fl hasher key value = some ({ m with heap := heap },
        { key := .entryKey a, value := .entryValue a, inserted := true }) ∧
      next heap = next m.heap ∧
      payload heap = Function.update (payload m.heap) a (some (key, value)) := by
  obtain ⟨b, hb, hne, hsearch⟩ := h.search_present ha hk
  obtain ⟨heap, hset, hnext, hpay⟩ := setValue_spec hk value
  refine ⟨heap, ?_, hnext, hpay⟩
  have hover : overwriteValue m.heap a value = some heap := (if_pos htrivial).trans hset
  simp only [Map.update, hb, Option.bind_eq_bind, Option.bind_some, if_neg hne, hsearch, hover]

/-- **A value that was destroyed** is assigned to, where the destructor is not trivial. -/
theorem WF.update_destroyed (h : m.WF hasher nodes)
    (htrivial : ValueType.triviallyDestructible V ≠ true) (fl : Rounding) (value : V) {a : ℕ}
    (ha : a ∈ nodes) (hk : keyOf m.heap a = some key) :
    m.update fl hasher key value = none := by
  obtain ⟨b, hb, hne, hsearch⟩ := h.search_present ha hk
  have hover : overwriteValue m.heap a value = none := if_neg htrivial
  simp only [Map.update, hb, Option.bind_eq_bind, Option.bind_some, if_neg hne, hsearch, hover,
    Option.bind_none]

/-- The two calls add an entry in the same way. -/
theorem WF.update_eq_insert_of_absent (h : m.WF hasher nodes) (fl : Rounding) (value : V)
    (habsent : ∀ a ∈ nodes, keyOf m.heap a ≠ some key) :
    m.update fl hasher key value = m.insert fl hasher key value := by
  obtain ⟨b, hb, hzero | ⟨hne, z, hsearch, -⟩⟩ := h.search_absent habsent
  · simp only [Map.update, Map.insert, hb, Option.bind_eq_bind, Option.bind_some, if_pos hzero]
  · simp only [Map.update, Map.insert, hb, Option.bind_eq_bind, Option.bind_some, if_neg hne,
      hsearch]

/-- **Update** binds the key to the value, where it is defined. -/
theorem Represents.update (h : m.Represents hasher nodes s)
    (hdefined : ValueType.triviallyDestructible V = true ∨ key ∉ s) (fl : Rounding) (value : V)
    (hsmall : nodes.length < 2 ^ 60) :
    ∃ m' r nodes', m.update fl hasher key value = some (m', r) ∧ r.inserted = true ∧
      m'.Represents hasher nodes' (s.insert key value) := by
  rcases hl : s.lookup key with _ | old
  · have habsent := h.lookup_none.mp hl
    obtain ⟨m', nodes', hm', hrep⟩ := h.add fl value habsent hsmall
    exact ⟨m', argResult, nodes', (h.wf.update_eq_insert_of_absent fl value habsent).trans hm',
      rfl, hrep⟩
  · obtain ⟨a, ha, hp⟩ := (h.binds key old).mp hl
    have hk := keyOf_of_payload hp
    have htrivial := hdefined.resolve_right (not_not_intro (Finmap.mem_of_lookup_eq_some hl))
    obtain ⟨heap, hupdate, hnext, hpay⟩ := h.wf.update_present htrivial fl value ha hk
    exact ⟨_, _, nodes, hupdate, rfl, h.setValue ha hk value hnext hpay⟩

/-- **An update of a key that is bound** is undefined, without a trivial destructor. -/
theorem Represents.update_destroyed (h : m.Represents hasher nodes s)
    (htrivial : ValueType.triviallyDestructible V ≠ true) (hkey : key ∈ s) (fl : Rounding)
    (value : V) : m.update fl hasher key value = none := by
  obtain ⟨old, hl⟩ := Finmap.mem_iff.mp hkey
  obtain ⟨a, ha, hp⟩ := (h.binds key old).mp hl
  exact h.wf.update_destroyed htrivial fl value ha (keyOf_of_payload hp)

/-- An update that returns was defined. -/
theorem Represents.defined_of_update (h : m.Represents hasher nodes s) {fl : Rounding} {value : V}
    {m' : Map K V} {r : InsertKVResult} (hm' : m.update fl hasher key value = some (m', r)) :
    ValueType.triviallyDestructible V = true ∨ key ∉ s := by
  by_contra hnot
  obtain ⟨htrivial, hkey⟩ := not_or.mp hnot
  rw [h.update_destroyed htrivial (not_not.mp hkey) fl value] at hm'
  cases hm'

/-! ## Whole runs -/

theorem Represents.call (h : m.Represents hasher nodes s) {op : Op K V}
    (hdefined : ValueType.triviallyDestructible V = true ∨ ¬ Rebinds s op) (fl : Rounding)
    (hsmall : nodes.length < 2 ^ 60) :
    ∃ m' nodes', m.call fl hasher op = some (m', (specCall s op).2) ∧
      m'.Represents hasher nodes' (specCall s op).1 := by
  rcases op with ⟨key, value⟩ | ⟨key, value⟩ | key | _
  · obtain ⟨m', r, nodes', hm', hreply, hrep⟩ := h.insert fl key value hsmall
    exact ⟨m', nodes', by simp [Map.call, hm', hreply], hrep⟩
  · obtain ⟨m', r, nodes', hm', hr, hrep⟩ := h.update hdefined fl value hsmall
    exact ⟨m', nodes', by simp [Map.call, hm', hr, specCall], hrep⟩
  · obtain ⟨r, hr, hread⟩ := h.lookup key
    exact ⟨m, nodes, by simp [Map.call, hr, hread, specCall], h⟩
  · refine ⟨m, nodes, ?_, h⟩
    rw [Map.call, count, h.wf.count, ← h.card]
    rfl

theorem Represents.call_destroyed (h : m.Represents hasher nodes s) {op : Op K V}
    (htrivial : ValueType.triviallyDestructible V ≠ true) (hop : Rebinds s op) (fl : Rounding) :
    m.call fl hasher op = none := by
  cases op with
  | update key value => rw [Map.call, h.update_destroyed htrivial hop fl value]; rfl
  | insert key value => exact hop.elim
  | lookup key => exact hop.elim
  | count => exact hop.elim

/-- **Calls that are all defined** return, with the answers of the finite partial map. -/
theorem Represents.calls (h : m.Represents hasher nodes s) {ops : List (Op K V)}
    (hdefined : ValueType.triviallyDestructible V = true ∨ NoRebind s ops) (fl : Rounding)
    (hsmall : (specCalls s ops).1.keys.card < 2 ^ 60) :
    ∃ m' nodes', m.calls fl hasher ops = some (m', (specCalls s ops).2) ∧
      m'.Represents hasher nodes' (specCalls s ops).1 := by
  induction ops generalizing m nodes s with
  | nil => exact ⟨m, nodes, rfl, h⟩
  | cons op ops ih =>
      obtain ⟨m₁, nodes₁, hm₁, hrep₁⟩ :=
        h.call (hdefined.imp_right And.left) fl (h.length_lt hsmall)
      obtain ⟨m₂, nodes₂, hm₂, hrep₂⟩ := ih hrep₁ (hdefined.imp_right And.right) hsmall
      exact ⟨m₂, nodes₂, by simp [Map.calls, hm₁, hm₂, specCalls], hrep₂⟩

/-- **The first update of a key that is bound** is where the calls stop being defined. -/
theorem Represents.calls_destroyed (h : m.Represents hasher nodes s) {ops : List (Op K V)}
    (htrivial : ValueType.triviallyDestructible V ≠ true) (hrebind : ¬ NoRebind s ops)
    (fl : Rounding) (hsmall : (specCalls s ops).1.keys.card < 2 ^ 60) :
    m.calls fl hasher ops = none := by
  induction ops generalizing m nodes s with
  | nil => exact absurd trivial hrebind
  | cons op ops ih =>
      by_cases hop : Rebinds s op
      · rw [Map.calls, h.call_destroyed htrivial hop fl]
        rfl
      · obtain ⟨m₁, nodes₁, hm₁, hrep₁⟩ := h.call (Or.inr hop) fl (h.length_lt hsmall)
        have hrest := ih hrep₁ (fun hrest => hrebind ⟨hop, hrest⟩) hsmall
        simp only [Map.calls, hm₁, Option.bind_eq_bind, Option.bind_some, hrest, Option.bind_none]

end

theorem create_represents (hasher : K → Size) {maxCapacity : Size}
    (hmax : 2 ≤ maxCapacity.toNat) :
    ∃ m : Map K V, create maxCapacity = some m ∧ m.Represents hasher [] ∅ := by
  have hne : maxCapacity ≠ 0 := by
    rintro rfl
    exact absurd hmax (by decide)
  refine ⟨_, by rw [create, if_neg hne], ⟨⟨?_, ?_, ?_, List.nodup_nil, ?_, rfl⟩, ?_⟩⟩
  · exact List.length_replicate
  · obtain ⟨k, hk, -⟩ := initCapacity_pow2 hmax
    exact hk ▸ Nat.two_pow_pos k
  · intro a ha
    cases ha
  · intro i b hb
    rw [List.eq_of_mem_replicate (List.mem_of_getElem? hb)]
    exact ⟨rfl, rfl⟩
  · intro key value
    rw [Finmap.lookup_empty]
    constructor
    · intro h
      cases h
    · rintro ⟨a, ha, -⟩
      cases ha

/-- An update of a string. -/
theorem calls_ne_spec_string :
    ¬ ∀ ops : List (Op ℕ String), (specCalls ∅ ops).1.keys.card < 2 ^ 60 →
      ∃ m m' : Map ℕ String, create 2 = some m ∧
        m.calls .binary64 (fun _ => 7) ops = some (m', (specCalls ∅ ops).2) := by
  intro hall
  have hsmall : (specCalls ∅ [.insert 1 "a", (.update 1 "b" : Op ℕ String)]).1.keys.card <
    2 ^ 60 := by decide
  have hrebind : ¬ NoRebind ∅ [.insert 1 "a", (.update 1 "b" : Op ℕ String)] := by
    rintro ⟨-, hupdate, -⟩
    exact hupdate (Finmap.mem_insert.mpr (Or.inl rfl))
  obtain ⟨m, m', hm, hm'⟩ := hall _ hsmall
  obtain ⟨m₀, hm₀, hrep⟩ := create_represents (V := String) (fun _ : ℕ => 7)
    (show 2 ≤ (2 : Size).toNat by decide)
  obtain rfl : m = m₀ := Option.some.inj (hm.symm.trans hm₀)
  rw [hrep.calls_destroyed Bool.false_ne_true hrebind .binary64 hsmall] at hm'
  cases hm'

/-- **When the map behaves as a finite partial map.** For every hasher, every rounding of the
load factor, every maximum capacity from two on and every sequence of calls that binds
fewer than `2 ^ 60` keys: the calls all return, with the answers of a finite partial map, if and
only if the destructor of the values is trivial, or no call updates a key that is bound. -/
theorem calls_eq_spec_iff [ValueType V] (fl : Rounding) (hasher : K → Size) (maxCapacity : Size)
    (hmax : 2 ≤ maxCapacity.toNat) (ops : List (Op K V))
    (hsmall : (specCalls ∅ ops).1.keys.card < 2 ^ 60) :
    (∃ m m' : Map K V, create maxCapacity = some m ∧
      m.calls fl hasher ops = some (m', (specCalls ∅ ops).2)) ↔
        ValueType.triviallyDestructible V = true ∨ NoRebind ∅ ops := by
  obtain ⟨m, hm, hrep⟩ := create_represents (V := V) hasher hmax
  constructor
  case mp =>
    rintro ⟨m₁, m', hm₁, hm'⟩
    obtain rfl : m = m₁ := Option.some.inj (hm.symm.trans hm₁)
    by_contra hnot
    obtain ⟨htrivial, hrebind⟩ := not_or.mp hnot
    rw [hrep.calls_destroyed htrivial hrebind fl hsmall] at hm'
    cases hm'
  case mpr =>
    intro hdefined
    obtain ⟨m', nodes', hm', -⟩ := hrep.calls hdefined fl hsmall
    exact ⟨m, m', hm, hm'⟩

/-- Three keys in one bucket of a table that starts with one and grows to two. -/
theorem calls_eq_spec_iff_colliding :
    ∃ m m' : Map ℕ ℕ, create 2 = some m ∧
      m.calls .binary64 (fun _ => 7)
        [.insert 1 10, .insert 2 20, .insert 1 11, .update 2 21, .update 3 30, .lookup 1,
          .lookup 2, .lookup 4, .count] =
        some (m', [.inserted true, .inserted true, .inserted false, .updated true,
          .updated true, .found (some (1, 10)), .found (some (2, 21)), .found none,
          .counted 3]) := by
  obtain ⟨m, m', hm, hm'⟩ := (calls_eq_spec_iff .binary64 (fun _ : ℕ => 7) 2 (by decide)
    [.insert 1 10, .insert 2 20, .insert 1 11, .update 2 21, .update 3 30, .lookup 1,
      .lookup 2, .lookup 4, (.count : Op ℕ ℕ)] (by decide)).mpr (Or.inl rfl)
  exact ⟨m, m', hm, hm'.trans (congrArg (fun r => some (m', r)) (by decide))⟩

end

end Coroutines.Map
