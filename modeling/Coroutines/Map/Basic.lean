import Coroutines.Lib.Heap
import Coroutines.Lib.Loop
import Coroutines.Lib.Rounding
import Mathlib.Data.Int.Notation

/-!
# The chaining hash map

`applications/map/map.hpp`. The entries live on a heap and are linked through their
`next` pointers; the table is an array of bucket heads. A pointer is an address, a null
pointer `none`, and `std::size_t` has 64 bits. Following a null pointer, or reading past
the end of the table, is undefined.

The key type and the hasher are those of any instantiation. Of the value type matters whether
its destructor does anything, as `update` destroys the value it then assigns to. The one
floating point computation, the load factor, rounds with a given `Rounding`.
-/

namespace Coroutines

open Loop

/-- `std::size_t`. -/
abbrev Size := BitVec 64

structure Map.Entry (K V : Type) where
  next : Option ℕ
  key : K
  value : V

/-- What the table asks of `ValueT`. -/
class Map.ValueType (V : Type) where
  /-- `std::is_trivially_destructible_v<ValueT>`. -/
  triviallyDestructible : Bool

/-- `int`. -/
instance : Map.ValueType ℕ := ⟨true⟩

/-- `std::string`. -/
instance : Map.ValueType String := ⟨false⟩

structure Map.Bucket where
  /-- The first entry of the chain, if any. -/
  first : Option ℕ := none
  nItems : Size := 0

structure Map (K V : Type) where
  nItems : Size
  /-- The number of buckets. -/
  capacity : Size
  maxCapacity : Size
  buckets : List Map.Bucket
  heap : Heap (Map.Entry K V)

namespace Map

/-! ## What the operations return -/

/-- What a reference in a result designates: an argument of the call, or a field of the
entry at an address. -/
inductive Slot
  | argKey
  | argValue
  | entryKey (a : ℕ)
  | entryValue (a : ℕ)
deriving DecidableEq

structure LookupKVResult where
  key : Option Slot := none
  value : Option Slot := none
deriving DecidableEq

/-- The result that refers to the entry at `a`. -/
def LookupKVResult.ofEntry (a : ℕ) : LookupKVResult where
  key := some (.entryKey a)
  value := some (.entryValue a)

structure InsertKVResult where
  key : Slot
  value : Slot
  inserted : Bool
deriving DecidableEq

/-- The key and the value that were moved out of the entry. -/
structure RemoveKVResult (K V : Type) where
  key : Option K := none
  value : Option V := none

/-! ## Construction -/

def defaultInitCapacity : Size := 16

def nextPowerOf2 (n : Size) : Size :=
  let n := n - 1
  let n := n ||| (n >>> 1)
  let n := n ||| (n >>> 2)
  let n := n ||| (n >>> 4)
  let n := n ||| (n >>> 8)
  let n := n ||| (n >>> 16)
  let n := n ||| (n >>> 32)
  n + 1

variable {K V : Type}

/-- `Map::Map(max_capacity)`, which throws at zero. -/
def create (maxCapacity : Size) : Option (Map K V) :=
  if maxCapacity = 0 then none
  else
    let least := if maxCapacity < defaultInitCapacity then maxCapacity else defaultInitCapacity
    let initCapacity := nextPowerOf2 least >>> 1
    some {
      nItems := 0
      capacity := initCapacity
      maxCapacity := maxCapacity
      buckets := List.replicate initCapacity.toNat {}
      heap := Heap.empty }

/-! ## Growing the table -/

/-- `hash & (capacity - 1)`. -/
def bucketIndex (hasher : K → Size) (capacity : Size) (key : K) : ℕ :=
  (hasher key &&& (capacity - 1)).toNat

def bucketIndexForKey (hasher : K → Size) (m : Map K V) (key : K) : ℕ :=
  bucketIndex hasher m.capacity key

/-- `entry->next = next`. -/
def setNext (heap : Heap (Entry K V)) (entry : ℕ) (next : Option ℕ) :
    Option (Heap (Entry K V)) :=
  heap.modify entry fun e => { e with next := next }

/-- `for (; current->next != nullptr; current = current->next);` -/
def endBody (heap : Heap (Entry K V)) (current : ℕ) : Option (ℕ ⊕ ℕ) := do
  let e ← heap.cells current
  match e.next with
  | none => some (.inr current)
  | some next => some (.inl next)

/-- The rounds a walk through the heap can take before it has met an entry twice, and goes
on forever. -/
def walkFuel (heap : Heap (Entry K V)) : ℕ := heap.fresh + 1

def insertIntoBucket (heap : Heap (Entry K V)) (bucket : Bucket) (entry : ℕ) :
    Option (Heap (Entry K V) × Bucket) := do
  let heap ← setNext heap entry none
  match bucket.first with
  | none => some (heap, { first := some entry, nItems := bucket.nItems + 1 })
  | some first =>
      let last ← iterate (endBody heap) (walkFuel heap) first
      let heap ← setNext heap last (some entry)
      some (heap, { bucket with nItems := bucket.nItems + 1 })

/-- The state of the resize loops: the heap and the new table. -/
structure Relink (K V : Type) where
  heap : Heap (Entry K V)
  newBuckets : List Bucket

/-- One round of `while (entry != nullptr)`. -/
def relinkBody (hasher : K → Size) (newCapacity : Size) (s : Option ℕ × Relink K V) :
    Option ((Option ℕ × Relink K V) ⊕ Relink K V) :=
  match s.1 with
  | none => some (.inr s.2)
  | some entry => do
      let e ← s.2.heap.cells entry
      let newIndex := bucketIndex hasher newCapacity e.key
      let newBucket ← s.2.newBuckets[newIndex]?
      let (heap, newBucket) ← insertIntoBucket s.2.heap newBucket entry
      some (.inl (e.next, {
        heap := heap
        newBuckets := s.2.newBuckets.set newIndex newBucket }))

/-- One round of the loop over the old buckets. -/
def relinkBucket (hasher : K → Size) (newCapacity : Size) (buckets : List Bucket)
    (s : Relink K V) (i : ℕ) : Option (Relink K V) := do
  let bucket ← buckets[i]?
  iterate (relinkBody hasher newCapacity) (walkFuel s.heap) (bucket.first, s)

/-- The maximum load factor. -/
def maxLoadFactor : ℚ := 1 / 2

def resizeRequired (fl : Rounding) (m : Map K V) : Bool :=
  let loadFactorExceeded :=
    maxLoadFactor < fl.round (fl.round m.nItems.toNat / fl.round m.capacity.toNat)
  let capacityAvailable := m.capacity <<< 1 ≤ m.maxCapacity
  loadFactorExceeded && capacityAvailable

def performResizeIfRequired (fl : Rounding) (hasher : K → Size) (m : Map K V) :
    Option (Map K V) :=
  if m.resizeRequired fl then do
    let newCapacity := m.capacity <<< 1
    let s ← (List.range m.capacity.toNat).foldlM
      (relinkBucket hasher newCapacity m.buckets)
      { heap := m.heap, newBuckets := List.replicate newCapacity.toNat {} }
    some { m with capacity := newCapacity, buckets := s.newBuckets, heap := s.heap }
  else some m

/-! ## The operations -/

/-- Where the walk along a chain ends: at the entry with the key, or at the last one. -/
inductive Found
  | hit (entry : ℕ)
  | miss (last : ℕ)
deriving DecidableEq

variable [DecidableEq K]

/-- One round of the `for (;;)` that `lookup`, `insert` and `update` share. -/
def searchBody (heap : Heap (Entry K V)) (key : K) (entry : ℕ) : Option (ℕ ⊕ Found) := do
  let e ← heap.cells entry
  if key = e.key then some (.inr (.hit entry))
  else
    match e.next with
    | none => some (.inr (.miss entry))
    | some next => some (.inl next)

def search (heap : Heap (Entry K V)) (bucket : Bucket) (key : K) : Option Found := do
  let first ← bucket.first
  iterate (searchBody heap key) (walkFuel heap) first

def lookup (hasher : K → Size) (m : Map K V) (key : K) : Option LookupKVResult := do
  let bucket ← m.buckets[m.bucketIndexForKey hasher key]?
  if bucket.nItems = 0 then some {}
  else
    match ← search m.heap bucket key with
    | .hit entry => some (.ofEntry entry)
    | .miss _ => some {}

/-- A new entry in the empty bucket `index`. -/
def insertFirst (fl : Rounding) (hasher : K → Size) (m : Map K V) (index : ℕ)
    (bucket : Bucket) (key : K) (value : V) : Option (Map K V × InsertKVResult) := do
  let (newEntry, heap) := m.heap.alloc { next := none, key := key, value := value }
  let m : Map K V := { m with
    heap := heap
    buckets := m.buckets.set index { first := some newEntry, nItems := bucket.nItems + 1 }
    nItems := m.nItems + 1 }
  let m ← m.performResizeIfRequired fl hasher
  some (m, { key := .argKey, value := .argValue, inserted := true })

/-- A new entry behind the last one of the bucket `index`. -/
def insertLast (fl : Rounding) (hasher : K → Size) (m : Map K V) (index : ℕ)
    (bucket : Bucket) (last : ℕ) (key : K) (value : V) :
    Option (Map K V × InsertKVResult) := do
  let (newEntry, heap) := m.heap.alloc { next := none, key := key, value := value }
  let heap ← setNext heap last (some newEntry)
  let m : Map K V := { m with
    heap := heap
    buckets := m.buckets.set index { bucket with nItems := bucket.nItems + 1 }
    nItems := m.nItems + 1 }
  let m ← m.performResizeIfRequired fl hasher
  some (m, { key := .argKey, value := .argValue, inserted := true })

def insert (fl : Rounding) (hasher : K → Size) (m : Map K V) (key : K) (value : V) :
    Option (Map K V × InsertKVResult) := do
  let index := m.bucketIndexForKey hasher key
  let bucket ← m.buckets[index]?
  if bucket.nItems = 0 then m.insertFirst fl hasher index bucket key value
  else
    match ← search m.heap bucket key with
    | .hit entry =>
        some (m, { key := .entryKey entry, value := .entryValue entry, inserted := false })
    | .miss last => m.insertLast fl hasher index bucket last key value

/-- `entry->value.~ValueT(); entry->value = value;`. Without a trivial destructor, the value that
is assigned to is not there any more. -/
def overwriteValue [ValueType V] (heap : Heap (Entry K V)) (entry : ℕ) (value : V) :
    Option (Heap (Entry K V)) :=
  if ValueType.triviallyDestructible V then
    heap.modify entry fun e => { e with value := value }
  else none

def update [ValueType V] (fl : Rounding) (hasher : K → Size) (m : Map K V) (key : K) (value : V) :
    Option (Map K V × InsertKVResult) := do
  let index := m.bucketIndexForKey hasher key
  let bucket ← m.buckets[index]?
  if bucket.nItems = 0 then m.insertFirst fl hasher index bucket key value
  else
    match ← search m.heap bucket key with
    | .hit entry =>
        let heap ← overwriteValue m.heap entry value
        some ({ m with heap := heap },
          { key := .entryKey entry, value := .entryValue entry, inserted := true })
    | .miss last => m.insertLast fl hasher index bucket last key value

def remove (hasher : K → Size) (m : Map K V) (key : K) :
    Option (Map K V × RemoveKVResult K V) := do
  let index := m.bucketIndexForKey hasher key
  let bucket ← m.buckets[index]?
  if bucket.nItems = 0 then some (m, {})
  else
    match ← search m.heap bucket key with
    | .hit entry => do
        let e ← m.heap.cells entry
        -- the loop does not advance `prev`
        let prev : Option ℕ := none
        let (heap, first) ← match prev with
          | some prev => do some (← setNext m.heap prev e.next, bucket.first)
          | none => some (m.heap, e.next)
        some ({ m with
          heap := heap.free entry
          buckets := m.buckets.set index { first := first, nItems := bucket.nItems - 1 }
          nItems := m.nItems - 1 }, { key := some e.key, value := some e.value })
    | .miss _ => some (m, {})

def count (m : Map K V) : Size := m.nItems

end Map

end Coroutines
