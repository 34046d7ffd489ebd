import Coroutines.Map.Order
import Coroutines.Map.References

/-!
# The map is a list of bindings, oldest first

A chain grows at its end, and a resize takes the entries of a new chain from one old chain only,
in their order. So every chain lists its bindings in the order in which their keys came: the
table is one list of bindings, taken apart by bucket. `remove` unlinks the first entry of a
bucket: it takes a key out of that list when the key is the oldest of its bucket. `update` gives
a key that is bound a new value when the destructor of the old one is trivial.
-/

namespace Coroutines.Map

open Links Loop
open Function (update_self update_of_ne)

variable {K V : Type}

/-! ## Calls and answers -/

/-- A call of any operation. -/
inductive Request (K V : Type)
  | call (op : Op K V)
  | remove (key : K)

inductive Answer (K V : Type)
  | replied (reply : Reply K V)
  | removed (entry : Option (K × V))
deriving DecidableEq

/-! ## The list of bindings -/

/-- The bindings, the oldest key first, and how many buckets they are spread over. -/
structure Bindings (K V : Type) where
  capacity : Size
  maxCapacity : Size
  entries : List (K × V) := []

namespace Bindings

/-- The first binding of a bucket. -/
def first (hasher : K → Size) (t : Bindings K V) (index : ℕ) : Option (K × V) :=
  t.entries.find? fun e => bucketIndex hasher t.capacity e.1 = index

/-- Twice the buckets, if half as many bindings are exceeded and the maximum allows it. -/
def spread (fl : Rounding) (t : Bindings K V) : Bindings K V :=
  if maxLoadFactor < fl.round (fl.round t.entries.length / fl.round t.capacity.toNat) ∧
      t.capacity <<< 1 ≤ t.maxCapacity then
    { t with capacity := t.capacity <<< 1 }
  else t

/-- The youngest binding. -/
def add (fl : Rounding) (t : Bindings K V) (key : K) (value : V) : Bindings K V :=
  spread fl { t with entries := t.entries ++ [(key, value)] }

end Bindings

section
variable [DecidableEq K]

def serve [ValueType V] (fl : Rounding) (hasher : K → Size) (m : Map K V) :
    Request K V → Option (Map K V × Answer K V)
  | .call op => do
      let (m, reply) ← m.call fl hasher op
      some (m, .replied reply)
  | .remove key => do
      let (m, r) ← m.remove hasher key
      some (m, .removed r.read)

def serves [ValueType V] (fl : Rounding) (hasher : K → Size) (m : Map K V) :
    List (Request K V) → Option (Map K V × List (Answer K V))
  | [] => some (m, [])
  | request :: requests => do
      let (m, answer) ← m.serve fl hasher request
      let (m, answers) ← m.serves fl hasher requests
      some (m, answer :: answers)

/-! ## Calls on the list -/

namespace Bindings

def find (t : Bindings K V) (key : K) : Option (K × V) :=
  t.entries.find? fun e => e.1 = key

/-- A new value, at the old place. -/
def rebind (t : Bindings K V) (key : K) (value : V) : Bindings K V :=
  { t with entries := t.entries.map fun e => if e.1 = key then (key, value) else e }

def erase (t : Bindings K V) (key : K) : Bindings K V :=
  { t with entries := t.entries.filter fun e => e.1 ≠ key }

/-- One call, on a list of bindings. -/
def serve (fl : Rounding) (t : Bindings K V) : Request K V → Bindings K V × Answer K V
  | .call (.insert key value) =>
      match t.find key with
      | some _ => (t, .replied (.inserted false))
      | none => (t.add fl key value, .replied (.inserted true))
  | .call (.update key value) =>
      match t.find key with
      | some _ => (t.rebind key value, .replied (.updated true))
      | none => (t.add fl key value, .replied (.updated true))
  | .call (.lookup key) => (t, .replied (.found (t.find key)))
  | .call .count => (t, .replied (.counted t.entries.length))
  | .remove key => (t.erase key, .removed (t.find key))

def serves (fl : Rounding) (t : Bindings K V) :
    List (Request K V) → Bindings K V × List (Answer K V)
  | [] => (t, [])
  | request :: requests =>
      let (t, answer) := t.serve fl request
      let (t, answers) := t.serves fl requests
      (t, answer :: answers)

/-- The key is unbound, or the oldest of its bucket. -/
def Oldest (hasher : K → Size) (t : Bindings K V) (key : K) : Prop :=
  t.find key = none ∨ t.first hasher (bucketIndex hasher t.capacity key) = t.find key

/-- A condition on every call and the bindings before it. -/
def Along (fl : Rounding) (P : Bindings K V → Request K V → Prop) :
    Bindings K V → List (Request K V) → Prop
  | _, [] => True
  | t, request :: requests => P t request ∧ Along fl P (t.serve fl request).1 requests

/-- There is room for one binding more. -/
def HasRoom (t : Bindings K V) (_ : Request K V) : Prop := t.entries.length < 2 ^ 60

/-- The value that the key may have can be overwritten. -/
def Overwritable [ValueType V] (t : Bindings K V) (key : K) : Prop :=
  ValueType.triviallyDestructible V = true ∨ t.find key = none

/-- There is room, a key to be removed is the oldest of its bucket, and a value to be overwritten
has a trivial destructor. -/
def Admits [ValueType V] (hasher : K → Size) (t : Bindings K V) (request : Request K V) : Prop :=
  t.HasRoom request ∧
    match request with
    | .call (.update key _) => t.Overwritable key
    | .call _ => True
    | .remove key => t.Oldest hasher key

abbrev Roomy (fl : Rounding) : Bindings K V → List (Request K V) → Prop := Along fl HasRoom

abbrev Orderly [ValueType V] (fl : Rounding) (hasher : K → Size) :
    Bindings K V → List (Request K V) → Prop :=
  Along fl (Admits hasher)

instance (t : Bindings K V) (request : Request K V) : Decidable (t.HasRoom request) :=
  inferInstanceAs (Decidable (_ < _))

instance [DecidableEq V] [ValueType V] (hasher : K → Size) (t : Bindings K V)
    (request : Request K V) : Decidable (t.Admits hasher request) :=
  match request with
  | .call (.update _ _) => inferInstanceAs (Decidable (_ < _ ∧ (_ ∨ _)))
  | .call (.insert _ _) => inferInstanceAs (Decidable (_ < _ ∧ True))
  | .call (.lookup _) => inferInstanceAs (Decidable (_ < _ ∧ True))
  | .call .count => inferInstanceAs (Decidable (_ < _ ∧ True))
  | .remove _ => inferInstanceAs (Decidable (_ < _ ∧ (_ ∨ _)))

instance decidableAlong (fl : Rounding) (P : Bindings K V → Request K V → Prop)
    [∀ t request, Decidable (P t request)] :
    (t : Bindings K V) → (requests : List (Request K V)) → Decidable (Along fl P t requests)
  | _, [] => inferInstanceAs (Decidable True)
  | t, request :: requests =>
      have := decidableAlong fl P (t.serve fl request).1 requests
      inferInstanceAs (Decidable (_ ∧ _))

end Bindings

end

/-! ## The table and the list -/

/-- The table holds the bindings of `t`, in the entries `nodes`, and nothing else is on the
heap. -/
structure Realizes (hasher : K → Size) (m : Map K V) (nodes : List ℕ) (t : Bindings K V) :
    Prop where
  wf : m.WF hasher nodes
  payloads : nodes.map (payload m.heap) = t.entries.map some
  live : ∀ a, Stored m.heap a → a ∈ nodes
  capacity : m.capacity = t.capacity
  maxCapacity : m.maxCapacity = t.maxCapacity
  pow2 : ∃ k, m.capacity.toNat = 2 ^ k

variable {hasher : K → Size} {m : Map K V} {nodes : List ℕ} {t : Bindings K V} {key : K}

theorem Realizes.mem_entries (h : m.Realizes hasher nodes t) {e : K × V} :
    e ∈ t.entries ↔ ∃ a ∈ nodes, payload m.heap a = some e := by
  rw [← List.mem_map, h.payloads, List.mem_map]
  constructor
  · intro he
    exact ⟨e, he, rfl⟩
  · rintro ⟨e', he', heq⟩
    exact Option.some.inj heq ▸ he'

theorem Realizes.length_entries (h : m.Realizes hasher nodes t) :
    t.entries.length = nodes.length := by
  have hlen := congrArg List.length h.payloads
  rw [List.length_map, List.length_map] at hlen
  exact hlen.symm

/-- A key is bound once. -/
theorem Realizes.keys_nodup (h : m.Realizes hasher nodes t) :
    (t.entries.map Prod.fst).Nodup := by
  have hkeys : nodes.map (keyOf m.heap) = (t.entries.map Prod.fst).map some := by
    have hmap := congrArg (List.map (Option.map Prod.fst)) h.payloads
    rw [List.map_map, List.map_map] at hmap
    rw [List.map_map]
    exact hmap
  have hnd := h.wf.distinct
  rw [hkeys] at hnd
  exact hnd.of_map

/-- The chain of a bucket starts with its oldest binding. -/
theorem Realizes.first_eq (h : m.Realizes hasher nodes t) (index : ℕ) :
    ((m.chainOf hasher nodes index).head?).map (payload m.heap) =
      (t.first hasher index).map some := by
  rw [chainOf, chainAt, List.head?_filter, Bindings.first, ← h.capacity]
  have hnodes := List.find?_map (p := fun p : Option (K × V) =>
    decide ((p.map Prod.fst).map (bucketIndex hasher m.capacity) = some index))
    (f := payload m.heap) (l := nodes)
  rw [h.payloads, List.find?_map] at hnodes
  apply hnodes.symm.trans
  congr 2
  funext e
  simp

/-- A chain of the table lists the bindings of its bucket. -/
theorem Realizes.chain_eq (h : m.Realizes hasher nodes t) {i : ℕ} {b : Bucket}
    (hb : m.buckets[i]? = some b) :
    ∃ l, Chain (next m.heap) b.first l ∧ l.map (payload m.heap) =
      (t.entries.filter fun e => bucketIndex hasher m.capacity e.1 = i).map some := by
  refine ⟨_, (h.wf.holds i b hb).chain, ?_⟩
  have hfilter := congrArg (List.filter fun p : Option (K × V) =>
    decide ((p.map Prod.fst).map (bucketIndex hasher m.capacity) = some i)) h.payloads
  rw [List.filter_map, List.filter_map] at hfilter
  apply hfilter.trans
  congr 2
  funext e
  simp

@[simp] theorem Bindings.entries_spread (fl : Rounding) (t : Bindings K V) :
    (t.spread fl).entries = t.entries := by
  unfold spread
  split <;> rfl

/-- The resize spreads the bindings over the buckets of the new table. -/
theorem spread_of_resize {fl : Rounding} {m' : Map K V} (hcapacity : m.capacity = t.capacity)
    (hmax : m.maxCapacity = t.maxCapacity) (hitems : m.nItems.toNat = t.entries.length)
    (h : m.performResizeIfRequired fl hasher = some m') :
    m'.capacity = (t.spread fl).capacity ∧ m'.maxCapacity = (t.spread fl).maxCapacity := by
  have hspread : t.spread fl =
      if m.resizeRequired fl then { t with capacity := t.capacity <<< 1 } else t := by
    simp only [Bindings.spread, resizeRequired, hcapacity, hmax, hitems, Bool.and_eq_true,
      decide_eq_true_eq]
  rw [hspread]
  rcases performResizeIfRequired_cases h with ⟨hresize, rfl⟩ | ⟨hresize, -, hmax', hcapacity'⟩
  · rw [hresize]
    exact ⟨hcapacity, hmax⟩
  · rw [hresize, hmax', hcapacity', hcapacity]
    exact ⟨rfl, hmax⟩

/-- The entry stays where it is, with its key. -/
def Keeps (m m' : Map K V) (nodes nodes' : List ℕ) (key : K) : Prop :=
  ∀ a ∈ nodes, keyOf m.heap a = some key → a ∈ nodes' ∧ keyOf m'.heap a = some key

theorem Keeps.refl (m : Map K V) (nodes : List ℕ) (key : K) : Keeps m m nodes nodes key :=
  fun _ ha hk => ⟨ha, hk⟩

theorem Keeps.trans {m' m'' : Map K V} {nodes' nodes'' : List ℕ}
    (h : Keeps m m' nodes nodes' key) (h' : Keeps m' m'' nodes' nodes'' key) :
    Keeps m m'' nodes nodes'' key := by
  intro a ha hk
  obtain ⟨ha', hk'⟩ := h a ha hk
  exact h' a ha' hk'

section
variable [DecidableEq K]

theorem Realizes.find_none (h : m.Realizes hasher nodes t) :
    t.find key = none ↔ ∀ a ∈ nodes, keyOf m.heap a ≠ some key := by
  rw [Bindings.find, List.find?_eq_none]
  constructor
  · intro hnone a ha hk
    obtain ⟨value, hp⟩ := keyOf_eq_some hk
    exact hnone _ (h.mem_entries.mpr ⟨a, ha, hp⟩) (by simp)
  · intro habsent e he hkey
    obtain ⟨a, ha, hp⟩ := h.mem_entries.mp he
    have hk : keyOf m.heap a = some e.1 := keyOf_of_payload hp
    rw [of_decide_eq_true hkey] at hk
    exact habsent a ha hk

theorem Realizes.find_some (h : m.Realizes hasher nodes t) {e : K × V}
    (hfind : t.find key = some e) :
    e.1 = key ∧ ∃ a ∈ nodes, payload m.heap a = some e ∧ keyOf m.heap a = some key := by
  have hfind : t.entries.find? (fun e => e.1 = key) = some e := hfind
  have hkey : e.1 = key := by simpa using List.find?_some hfind
  obtain ⟨a, ha, hp⟩ := h.mem_entries.mp (List.mem_of_find?_eq_some hfind)
  have hk : keyOf m.heap a = some e.1 := keyOf_of_payload hp
  rw [hkey] at hk
  exact ⟨hkey, a, ha, hp, hk⟩

/-! ## One call -/

/-- **A new binding** is the youngest, whether or not the table then grows. -/
theorem Realizes.add (h : m.Realizes hasher nodes t) (fl : Rounding) (value : V)
    (habsent : ∀ a ∈ nodes, keyOf m.heap a ≠ some key) (hroom : nodes.length < 2 ^ 60) :
    ∃ m' nodes', m.insert fl hasher key value = some (m', argResult) ∧
      m'.Realizes hasher nodes' (t.add fl key value) ∧ ∀ k, Keeps m m' nodes nodes' k := by
  obtain ⟨b, a, heap, first, hb, hadd, heq⟩ := h.wf.insert_absent fl value habsent
  have hwf := h.wf.withEntry hb habsent hadd (by omega)
  have hlength : (nodes ++ [a]).length ≤ 2 ^ 60 := by
    rw [List.length_append]
    exact hroom
  obtain ⟨m', hm', hwf', hpay⟩ := hwf.resize_in_order h.pow2 fl hlength
  have hpay' : payload m'.heap = Function.update (payload m.heap) a (some (key, value)) :=
    hpay.trans hadd.payload
  have hold : ∀ x ∈ nodes, payload m'.heap x = payload m.heap x := by
    intro x hx
    rw [hpay', update_of_ne (hadd.ne_of_mem h.wf x hx)]
  have hpayloads : (nodes ++ [a]).map (payload m'.heap) =
      (t.entries ++ [(key, value)]).map some := by
    rw [List.map_append, List.map_congr_left hold, h.payloads, List.map_singleton, hpay',
      update_self, List.map_append]
    rfl
  have hitems : (m.withEntry (m.bucketIndexForKey hasher key) b heap first).nItems.toNat =
      (t.entries ++ [(key, value)]).length := by
    rw [hwf.count, ← List.length_map (f := payload m'.heap), hpayloads, List.length_map]
  obtain ⟨hcapacity, hmax⟩ := spread_of_resize
    (m := m.withEntry (m.bucketIndexForKey hasher key) b heap first)
    (t := { t with entries := t.entries ++ [(key, value)] }) h.capacity h.maxCapacity hitems hm'
  refine ⟨m', nodes ++ [a], by rw [heq, hm']; rfl, ?_, ?_⟩
  · constructor
    case wf => exact hwf'
    case payloads =>
      rw [hpayloads, Bindings.add, Bindings.entries_spread]
    case live =>
      rintro x ⟨p, hp⟩
      rw [hpay'] at hp
      by_cases hx : x = a
      · simp [hx]
      · rw [update_of_ne hx] at hp
        exact List.mem_append_left _ (h.live x ⟨p, hp⟩)
    case capacity => exact hcapacity
    case maxCapacity => exact hmax
    case pow2 =>
      obtain ⟨k, hk⟩ := h.pow2
      rcases (performResizeIfRequired_grown hm' (hwf.count ▸ hlength)).capacity with
        hsame | ⟨hdouble, -⟩
      · exact ⟨k, hsame ▸ hk⟩
      · exact ⟨k + 1, by rw [hdouble, Nat.pow_succ, Nat.mul_comm]; exact congrArg (· * 2) hk⟩
  · intro k x hx hk
    refine ⟨List.mem_append_left _ hx, ?_⟩
    rw [keyOf, hold x hx]
    exact hk

/-- **A new value** is written where the old one was. -/
theorem Realizes.rebind [ValueType V] (h : m.Realizes hasher nodes t)
    (htrivial : ValueType.triviallyDestructible V = true) (fl : Rounding) (value : V) {a : ℕ}
    (ha : a ∈ nodes) (hk : keyOf m.heap a = some key) :
    ∃ m' r, m.update fl hasher key value = some (m', r) ∧ r.inserted = true ∧
      m'.Realizes hasher nodes (t.rebind key value) ∧ ∀ k, Keeps m m' nodes nodes k := by
  obtain ⟨heap, hupdate, hnext, hpay⟩ := h.wf.update_present htrivial fl value ha hk
  have hpayload : ∀ x ∈ nodes, payload heap x = (payload m.heap x).map fun e =>
      if e.1 = key then (key, value) else e := by
    intro x hx
    obtain ⟨⟨k, v⟩, hp⟩ := h.wf.stored x hx
    rw [hpay, hp]
    by_cases hkey : k = key
    · rw [hkey] at hp
      rw [h.wf.eq_of_key hx ha (keyOf_of_payload hp) hk, update_self]
      simp [hkey]
    · have hne : x ≠ a := by
        rintro rfl
        rw [keyOf_of_payload hp] at hk
        exact hkey (Option.some.inj hk)
      rw [update_of_ne hne, hp]
      simp [hkey]
  refine ⟨_, _, hupdate, rfl, ?_, fun k x hx hkx => ⟨hx, ?_⟩⟩
  · constructor
    case wf => exact h.wf.setValue hk value hnext hpay
    case payloads =>
      have hmap := congrArg (List.map (Option.map fun e : K × V =>
        if e.1 = key then (key, value) else e)) h.payloads
      rw [List.map_map, List.map_map] at hmap
      show nodes.map (payload heap) = _
      rw [List.map_congr_left hpayload, Bindings.rebind, List.map_map]
      exact hmap
    case live =>
      rintro x ⟨p, hp⟩
      have hp : payload heap x = some p := hp
      rw [hpay] at hp
      by_cases hx : x = a
      · exact hx ▸ ha
      · rw [update_of_ne hx] at hp
        exact h.live x ⟨p, hp⟩
    case capacity => exact h.capacity
    case maxCapacity => exact h.maxCapacity
    case pow2 => exact h.pow2
  · obtain ⟨v, hp⟩ := keyOf_eq_some hkx
    show (payload heap x).map Prod.fst = some k
    rw [hpayload x hx, hp, Option.map_some, Option.map_some]
    by_cases hkey : k = key
    · simp [hkey]
    · simp [hkey]

/-- The oldest binding of a bucket is the first entry of its chain. -/
theorem Realizes.first_of_oldest (h : m.Realizes hasher nodes t) (hold : t.Oldest hasher key)
    {a : ℕ} {b : Bucket} (ha : a ∈ nodes) (hk : keyOf m.heap a = some key)
    (hb : m.buckets[m.bucketIndexForKey hasher key]? = some b) : b.first = some a := by
  rcases hold with hnone | hfirst
  · exact absurd hk (h.find_none.mp hnone a ha)
  · have hhead := h.first_eq (bucketIndex hasher t.capacity key)
    rcases hfind : t.find key with _ | e
    · exact absurd hk (h.find_none.mp hfind a ha)
    · rw [hfirst, hfind, ← h.capacity] at hhead
      obtain ⟨x, hx, hp⟩ := Option.map_eq_some_iff.mp hhead
      obtain ⟨hkey, -⟩ := h.find_some hfind
      have hmem : x ∈ nodes := (mem_chainAt.mp (List.mem_of_mem_head? hx)).1
      have hkx : keyOf m.heap x = some key := by
        have hp : payload m.heap x = some (e.1, e.2) := hp
        rw [← hkey]
        exact keyOf_of_payload hp
      obtain rfl := h.wf.eq_of_key ha hmem hk hkx
      have hchain := (h.wf.holds _ b hb).chain
      obtain ⟨rest, hrest⟩ := List.head?_eq_some_iff.mp hx
      rw [show m.chainOf hasher nodes (m.bucketIndexForKey hasher key) = a :: rest from hrest]
        at hchain
      exact hchain.1

/-- **A key that is the oldest of its bucket** is removed, and its entry deleted. -/
theorem Realizes.erase (h : m.Realizes hasher nodes t) (hold : t.Oldest hasher key) {e : K × V}
    (hfind : t.find key = some e) :
    ∃ m' r nodes', m.remove hasher key = some (m', r) ∧ r.read = some e ∧
      m'.Realizes hasher nodes' (t.erase key) ∧
      ∀ k, k ≠ key → Keeps m m' nodes nodes' k := by
  obtain ⟨rfl, a, ha, hp, hk⟩ := h.find_some hfind
  obtain ⟨b, hb⟩ := h.wf.bucket e.1
  obtain ⟨x, hx, hkey, hremove⟩ := h.wf.remove_present ha hk hb
  have hfirst := h.first_of_oldest hold ha hk hb
  have hwf := h.wf.unlinked ha hk hx hb hfirst
  have hpx : e = (x.key, x.value) := Option.some.inj (hp.symm.trans (payload_of_cell hx))
  have hne : ∀ y ∈ nodes.filter (· ≠ a), payload (m.heap.free a) y = payload m.heap y := by
    intro y hy
    rw [payload_free, update_of_ne (by simpa using (List.mem_filter.mp hy).2)]
  refine ⟨_, _, nodes.filter (· ≠ a), hremove, by rw [hpx]; rfl, ?_, ?_⟩
  · constructor
    case wf => exact hwf
    case payloads =>
      have hsplit : ∀ y ∈ nodes, decide (y ≠ a) =
          decide ((payload m.heap y).map Prod.fst ≠ some e.1) := by
        intro y hy
        by_cases hya : y = a
        · simp [hya, hp]
        · have hky : keyOf m.heap y ≠ some e.1 := fun hky => hya (h.wf.eq_of_key hy ha hky hk)
          exact decide_eq_decide.mpr (iff_of_true hya hky)
      have hfilter := congrArg (List.filter fun p : Option (K × V) =>
        decide (p.map Prod.fst ≠ some e.1)) h.payloads
      rw [List.filter_map, List.filter_map] at hfilter
      show (nodes.filter (· ≠ a)).map (payload (m.heap.free a)) = _
      rw [List.map_congr_left hne, List.filter_congr hsplit, Bindings.erase]
      apply hfilter.trans
      congr 2
      funext y
      simp
    case live =>
      rintro y ⟨p, hpy⟩
      have hpy : payload (m.heap.free a) y = some p := hpy
      rw [payload_free] at hpy
      have hya : y ≠ a := by
        rintro rfl
        rw [update_self] at hpy
        cases hpy
      rw [update_of_ne hya] at hpy
      simpa [hya] using h.live y ⟨p, hpy⟩
    case capacity => exact h.capacity
    case maxCapacity => exact h.maxCapacity
    case pow2 => exact h.pow2
  · intro k hkne y hy hky
    have hya : y ≠ a := by
      rintro rfl
      rw [hk] at hky
      exact hkne (Option.some.inj hky).symm
    refine ⟨by simpa [hya] using hy, ?_⟩
    show keyOf (m.heap.free a) y = some k
    rw [keyOf_free m.heap hya]
    exact hky

theorem Realizes.find_read (h : m.Realizes hasher nodes t) (key : K) :
    ∃ r, m.lookup hasher key = some r ∧ r.read m = some (t.find key) := by
  rcases hfind : t.find key with _ | e
  · exact ⟨{}, h.wf.lookup_absent (h.find_none.mp hfind), rfl⟩
  · obtain ⟨hkey, a, ha, hp, hk⟩ := h.find_some hfind
    have hp : payload m.heap a = some (e.1, e.2) := hp
    exact ⟨.ofEntry a, h.wf.lookup_present ha hk, read_ofEntry hp⟩

/-- **One call** answers from the list of bindings, and the entries of other keys than the one it
removes stay where they are. -/
theorem Realizes.serve [ValueType V] (h : m.Realizes hasher nodes t) (fl : Rounding)
    {request : Request K V} (hadmits : t.Admits hasher request) :
    ∃ m' nodes', m.serve fl hasher request = some (m', (t.serve fl request).2) ∧
      m'.Realizes hasher nodes' (t.serve fl request).1 ∧
      ∀ key, request ≠ .remove key → Keeps m m' nodes nodes' key := by
  obtain ⟨hroom, hold⟩ := hadmits
  have hlength : nodes.length < 2 ^ 60 := h.length_entries ▸ hroom
  rcases request with (⟨key, value⟩ | ⟨key, value⟩ | key | _) | key
  · rcases hfind : t.find key with _ | e
    · obtain ⟨m', nodes', hm', hrealizes, hkeeps⟩ :=
        h.add fl value (h.find_none.mp hfind) hlength
      refine ⟨m', nodes', ?_, ?_, fun k _ => hkeeps k⟩
      · simp [Map.serve, Map.call, Bindings.serve, hfind, hm', argResult]
      · simpa [Bindings.serve, hfind] using hrealizes
    · obtain ⟨-, a, ha, -, hk⟩ := h.find_some hfind
      refine ⟨m, nodes, ?_, ?_, fun k _ => .refl m nodes k⟩
      · simp [Map.serve, Map.call, Bindings.serve, hfind, h.wf.insert_present fl value ha hk]
      · simpa [Bindings.serve, hfind] using h
  · rcases hfind : t.find key with _ | e
    · have habsent := h.find_none.mp hfind
      obtain ⟨m', nodes', hm', hrealizes, hkeeps⟩ := h.add fl value habsent hlength
      have hupdate : m.update fl hasher key value = some (m', argResult) :=
        (h.wf.update_eq_insert_of_absent fl value habsent).trans hm'
      refine ⟨m', nodes', ?_, ?_, fun k _ => hkeeps k⟩
      · simp [Map.serve, Map.call, Bindings.serve, hfind, hupdate, argResult]
      · simpa [Bindings.serve, hfind] using hrealizes
    · obtain ⟨-, a, ha, -, hk⟩ := h.find_some hfind
      have htrivial := hold.resolve_right (by rw [hfind]; rintro ⟨⟩)
      obtain ⟨m', r, hm', hr, hrealizes, hkeeps⟩ := h.rebind htrivial fl value ha hk
      refine ⟨m', nodes, ?_, ?_, fun k _ => hkeeps k⟩
      · simp [Map.serve, Map.call, Bindings.serve, hfind, hm', hr]
      · simpa [Bindings.serve, hfind] using hrealizes
  · obtain ⟨r, hr, hread⟩ := h.find_read key
    refine ⟨m, nodes, ?_, h, fun k _ => .refl m nodes k⟩
    simp [Map.serve, Map.call, Bindings.serve, hr, hread]
  · refine ⟨m, nodes, ?_, h, fun k _ => .refl m nodes k⟩
    simp [Map.serve, Map.call, Bindings.serve, count, h.wf.count, h.length_entries]
  · rcases hfind : t.find key with _ | e
    · refine ⟨m, nodes, ?_, ?_, fun k _ => .refl m nodes k⟩
      · simp [Map.serve, Bindings.serve, hfind, h.wf.remove_absent (h.find_none.mp hfind),
          RemoveKVResult.read]
      · have herase : t.erase key = t := by
          have hall : t.entries.filter (fun e => e.1 ≠ key) = t.entries := by
            rw [Bindings.find, List.find?_eq_none] at hfind
            refine List.filter_eq_self.mpr fun e he => ?_
            simpa using hfind e he
          rw [Bindings.erase, hall]
        rw [Bindings.serve, herase]
        exact h
    · obtain ⟨m', r, nodes', hm', hread, hrealizes, hkeeps⟩ := h.erase hold hfind
      refine ⟨m', nodes', ?_, hrealizes, fun k hk => hkeeps k ?_⟩
      · simp [Map.serve, Bindings.serve, hfind, hm', hread]
      · rintro rfl
        exact hk rfl

/-! ## Whole runs -/

/-- No bindings yet. -/
def noBindings (m : Map K V) : Bindings K V where
  capacity := m.capacity
  maxCapacity := m.maxCapacity

theorem create_realizes (hasher : K → Size) {maxCapacity : Size} (hmax : 2 ≤ maxCapacity.toNat)
    (hm : create maxCapacity = some m) : m.Realizes hasher [] m.noBindings := by
  obtain ⟨m', hm', hrep⟩ := create_represents (V := V) hasher hmax
  obtain rfl : m = m' := Option.some.inj (hm.symm.trans hm')
  refine ⟨hrep.wf, rfl, ?_, rfl, rfl, (create_pow2Within hmax hm).1⟩
  rintro a ⟨p, hp⟩
  rw [create] at hm
  split at hm
  · cases hm
  · rw [← Option.some.inj hm] at hp
    cases hp

section
variable [ValueType V]

theorem Realizes.serves (h : m.Realizes hasher nodes t) {fl : Rounding}
    {requests : List (Request K V)} (horderly : t.Orderly fl hasher requests) :
    ∃ m' nodes', m.serves fl hasher requests = some (m', (t.serves fl requests).2) ∧
      m'.Realizes hasher nodes' (t.serves fl requests).1 ∧
      ∀ key, .remove key ∉ requests → Keeps m m' nodes nodes' key := by
  induction requests generalizing m nodes t with
  | nil => exact ⟨m, nodes, rfl, h, fun k _ => .refl m nodes k⟩
  | cons request requests ih =>
      obtain ⟨hadmits, hrest⟩ := horderly
      obtain ⟨m₁, nodes₁, hm₁, h₁, hkeeps₁⟩ := h.serve fl hadmits
      obtain ⟨m₂, nodes₂, hm₂, h₂, hkeeps₂⟩ := ih h₁ hrest
      refine ⟨m₂, nodes₂, by simp [Map.serves, hm₁, hm₂, Bindings.serves], h₂, fun k hk => ?_⟩
      rw [List.mem_cons, not_or] at hk
      exact (hkeeps₁ k (Ne.symm hk.1)).trans (hkeeps₂ k hk.2)

/-- Every call returns, and finds and leaves the table well formed. -/
def StaysWellFormed (fl : Rounding) (hasher : K → Size) (m : Map K V) :
    List (Request K V) → Prop
  | [] => ∃ nodes, m.WF hasher nodes
  | request :: requests => (∃ nodes, m.WF hasher nodes) ∧
      ∃ m' answer, m.serve fl hasher request = some (m', answer) ∧
        StaysWellFormed fl hasher m' requests

theorem StaysWellFormed.wf {fl : Rounding} {requests : List (Request K V)}
    (h : StaysWellFormed fl hasher m requests) : ∃ nodes, m.WF hasher nodes := by
  cases requests with
  | nil => exact h
  | cons request requests => exact h.1

/-- **A call that is not admitted** leaves a table that is not well formed. -/
theorem Realizes.admits (h : m.Realizes hasher nodes t) {fl : Rounding} {request : Request K V}
    {m' : Map K V} {answer : Answer K V} (hroom : t.HasRoom request)
    (hserve : m.serve fl hasher request = some (m', answer))
    (hwf : ∃ nodes', m'.WF hasher nodes') : t.Admits hasher request := by
  refine ⟨hroom, ?_⟩
  rcases request with (⟨key, value⟩ | ⟨key, value⟩ | key | _) | key
  case call.insert => trivial
  case call.update =>
      by_contra hnot
      obtain ⟨htrivial, hbound⟩ := not_or.mp hnot
      obtain ⟨e, hfind⟩ := Option.ne_none_iff_exists'.mp hbound
      obtain ⟨-, a, ha, -, hk⟩ := h.find_some hfind
      rw [Map.serve, Map.call, h.wf.update_destroyed htrivial fl value ha hk] at hserve
      cases hserve
  case call.lookup => trivial
  case call.count => trivial
  case remove =>
      rcases hfind : t.find key with _ | e
      · exact Or.inl hfind
      · right
        obtain ⟨rfl, a, ha, hp, hk⟩ := h.find_some hfind
        obtain ⟨b, hb⟩ := h.wf.bucket e.1
        obtain ⟨x, hx, -, hremove⟩ := h.wf.remove_present ha hk hb
        obtain ⟨nodes', hwf⟩ := hwf
        simp only [Map.serve, hremove, Option.bind_eq_bind, Option.bind_some, Option.some.injEq,
          Prod.mk.injEq] at hserve
        rw [← hserve.1] at hwf
        have hfirst := h.wf.first_of_unlinked ha hk hx hb hwf
        have hchain := (h.wf.holds _ b hb).chain
        rw [hfirst] at hchain
        obtain ⟨rest, hrest, -⟩ := chain_some.mp hchain
        have hhead := h.first_eq (m.bucketIndexForKey hasher e.1)
        rw [hrest, List.head?_cons, Option.map_some, hp] at hhead
        obtain ⟨e', he', heq⟩ := Option.map_eq_some_iff.mp hhead.symm
        obtain rfl : e' = e := Option.some.inj heq
        rw [← h.capacity, hfind]
        exact he'

theorem Realizes.staysWellFormed_iff (h : m.Realizes hasher nodes t) (fl : Rounding)
    {requests : List (Request K V)} (hroomy : t.Roomy fl requests) :
    StaysWellFormed fl hasher m requests ↔ t.Orderly fl hasher requests := by
  induction requests generalizing m nodes t with
  | nil => exact iff_of_true ⟨nodes, h.wf⟩ trivial
  | cons request requests ih =>
      obtain ⟨hroom, hroomy⟩ := hroomy
      constructor
      · rintro ⟨-, m', answer, hserve, hrest⟩
        have hadmits := h.admits hroom hserve hrest.wf
        obtain ⟨m₁, nodes₁, hm₁, h₁, -⟩ := h.serve fl hadmits
        obtain rfl : m' = m₁ := congrArg Prod.fst (Option.some.inj (hserve.symm.trans hm₁))
        exact ⟨hadmits, (ih h₁ hroomy).mp hrest⟩
      · rintro ⟨hadmits, hrest⟩
        obtain ⟨m₁, nodes₁, hm₁, h₁, -⟩ := h.serve fl hadmits
        exact ⟨⟨nodes, h.wf⟩, m₁, _, hm₁, (ih h₁ hroomy).mpr hrest⟩

/-- **The table is a list of bindings, oldest first.** For every hasher, every rounding of the
load factor, every maximum capacity from two on and every sequence of calls, `remove` among
them, each made while fewer than `2 ^ 60` keys are bound, in which a key that is removed is unbound
or the oldest of its bucket, and a key that is bound is updated only if the destructor of the values
is trivial: all calls return, with the answers of the list; and the chain of every bucket lists the
bindings that are left of that bucket, oldest first. -/
theorem serves_eq_bindings (fl : Rounding) (hasher : K → Size) (maxCapacity : Size)
    (hmax : 2 ≤ maxCapacity.toNat) (m : Map K V) (hm : create maxCapacity = some m)
    (requests : List (Request K V)) (horderly : m.noBindings.Orderly fl hasher requests) :
    ∃ m', m.serves fl hasher requests = some (m', (m.noBindings.serves fl requests).2) ∧
      ∀ i b, m'.buckets[i]? = some b → ∃ l, Chain (next m'.heap) b.first l ∧
        l.map (payload m'.heap) = ((m.noBindings.serves fl requests).1.entries.filter fun e =>
          bucketIndex hasher m'.capacity e.1 = i).map some := by
  obtain ⟨m', nodes, hm', hrealizes, -⟩ := (create_realizes hasher hmax hm).serves horderly
  exact ⟨m', hm', fun i b hb => hrealizes.chain_eq hb⟩

/-- A table of at most eight buckets starts with four. -/
theorem noBindings_of_eight {m : Map ℕ ℕ} (hm : create 8 = some m) :
    m.noBindings = { capacity := 4, maxCapacity := 8 } := by
  rw [← Option.some.inj hm]
  exact congrArg (fun c => Bindings.mk c 8 []) (by decide)

/-- Three keys that collide: the two oldest are removed, in turn, from a table that has grown. -/
theorem serves_eq_bindings_three_keys :
    ∃ m m' : Map ℕ ℕ, create 8 = some m ∧
      m.serves .exact (fun _ => 7) [.call (.insert 1 10), .call (.insert 2 20),
        .call (.insert 3 30), .remove 1, .call (.lookup 1), .remove 4, .call (.update 2 21),
        .remove 2, .call (.lookup 3), .call .count] =
      some (m', [.replied (.inserted true), .replied (.inserted true),
        .replied (.inserted true), .removed (some (1, 10)), .replied (.found none),
        .removed none, .replied (.updated true), .removed (some (2, 21)),
        .replied (.found (some (3, 30))), .replied (.counted 1)]) := by
  obtain ⟨m, hm, -⟩ := create_represents (K := ℕ) (V := ℕ) (fun _ => 7)
    (show 2 ≤ (8 : Size).toNat by decide)
  have hbindings := noBindings_of_eight hm
  obtain ⟨m', hm', -⟩ := serves_eq_bindings .exact (fun _ => 7) 8 (by decide) m hm
    [.call (.insert 1 10), .call (.insert 2 20), .call (.insert 3 30), .remove 1,
      .call (.lookup 1), .remove 4, .call (.update 2 21), .remove 2, .call (.lookup 3),
      .call .count] (by rw [hbindings]; decide +kernel)
  rw [hbindings] at hm'
  exact ⟨m, m', hm, hm'.trans (congrArg (fun r => some (m', r)) (by decide +kernel))⟩

/-- **What a run may remove.** For every run from a maximum capacity of two on, each call of which
is made while fewer than `2 ^ 60` keys are bound, with any removals: every call of it returns and
leaves a well-formed table if and only if each key that it removes is unbound, or the oldest of its
bucket, at that call, and each key that it updates is unbound, or the destructor of the values is
trivial. -/
theorem stays_wellFormed_iff_orderly (fl : Rounding) (hasher : K → Size) (maxCapacity : Size)
    (hmax : 2 ≤ maxCapacity.toNat) (m : Map K V) (hm : create maxCapacity = some m)
    (requests : List (Request K V)) (hroomy : m.noBindings.Roomy fl requests) :
    StaysWellFormed fl hasher m requests ↔ m.noBindings.Orderly fl hasher requests :=
  (create_realizes hasher hmax hm).staysWellFormed_iff fl hroomy

/-- The younger of two keys that collide is removed. -/
theorem not_stays_wellFormed_second :
    ∃ m : Map ℕ ℕ, create 8 = some m ∧ ¬ StaysWellFormed .exact (fun _ => 7) m
      [.call (.insert 1 10), .call (.insert 2 20), .remove 2] := by
  obtain ⟨m, hm, -⟩ := create_represents (K := ℕ) (V := ℕ) (fun _ => 7)
    (show 2 ≤ (8 : Size).toNat by decide)
  have hbindings := noBindings_of_eight hm
  refine ⟨m, hm, ?_⟩
  rw [stays_wellFormed_iff_orderly .exact (fun _ => 7) 8 (by decide) m hm
    [.call (.insert 1 10), .call (.insert 2 20), .remove 2] (by rw [hbindings]; decide +kernel),
    hbindings]
  decide +kernel

end

end

end Coroutines.Map
