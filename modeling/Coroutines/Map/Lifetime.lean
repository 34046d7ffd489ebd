import Coroutines.Map.Bindings

/-!
# What outlives a call, and what outlives the map

A resize relinks the entries and does not move them, so the references of a lookup stay good
until their key is removed. The entries that are not removed outlive the map itself: its
destructor deletes the array of buckets only.
-/

namespace Coroutines.Map

variable {K V : Type}

/-- `Map::~Map`: the array of buckets is deleted, and the heap left as it is. -/
def destroy (m : Map K V) : Heap (Entry K V) := m.heap

/-- The entries that live on a heap. -/
def liveEntries (heap : Heap (Entry K V)) : List ℕ :=
  (List.range heap.fresh).filter fun a => (heap.cells a).isSome

theorem mem_liveEntries {heap : Heap (Entry K V)} {a : ℕ} :
    a ∈ liveEntries heap ↔ Stored heap a := by
  rw [liveEntries, List.mem_filter, List.mem_range, Option.isSome_iff_exists]
  constructor
  · rintro ⟨-, e, he⟩
    exact ⟨_, payload_of_cell he⟩
  · intro hstored
    obtain ⟨e, he, -⟩ := hstored.cell
    exact ⟨Heap.lt_fresh he, e, he⟩

section
variable {hasher : K → Size} {m : Map K V} {nodes : List ℕ} {t : Bindings K V}

/-- The heap has the entries of the table, and no others. -/
theorem Realizes.liveEntries_perm (h : m.Realizes hasher nodes t) :
    (liveEntries m.heap).Perm nodes := by
  refine (List.perm_ext_iff_of_nodup (List.nodup_range.filter _) h.wf.nodup).mpr fun a => ?_
  exact mem_liveEntries.trans ⟨h.live a, h.wf.stored a⟩

end

variable [DecidableEq K]

namespace Bindings

theorem along_append {fl : Rounding} {P : Bindings K V → Request K V → Prop} {t : Bindings K V}
    {before after : List (Request K V)} :
    Along fl P t (before ++ after) ↔
      Along fl P t before ∧ Along fl P (t.serves fl before).1 after := by
  induction before generalizing t with
  | nil => exact (and_iff_right trivial).symm
  | cons request before ih =>
      rw [List.cons_append, Along, Along, ih, and_assoc]
      rfl

theorem serves_append (fl : Rounding) (t : Bindings K V) (before after : List (Request K V)) :
    (t.serves fl (before ++ after)).1 = ((t.serves fl before).1.serves fl after).1 := by
  induction before generalizing t with
  | nil => rfl
  | cons request before ih => exact ih _

end Bindings

variable [ValueType V]

/-- **References stay good.** For every orderly run from the construction of the map, with room,
with removals of unbound keys and of the oldest of a bucket only, and with defined updates; and for
every point of it at which a lookup returns references to an entry: as long as the key is not
removed, however often the table grows, the lookup of the key still returns these references, and
they read the value that the key is bound to by then. -/
theorem references_stay (fl : Rounding) (hasher : K → Size) (maxCapacity : Size)
    (hmax : 2 ≤ maxCapacity.toNat) (m : Map K V) (hm : create maxCapacity = some m)
    (before after : List (Request K V))
    (horderly : m.noBindings.Orderly fl hasher (before ++ after)) (m₁ : Map K V)
    (answers : List (Answer K V)) (hm₁ : m.serves fl hasher before = some (m₁, answers))
    (key : K) (a : ℕ) (hlookup : m₁.lookup hasher key = some (.ofEntry a))
    (hkept : .remove key ∉ after) :
    ∃ m₂ answers₂, m₁.serves fl hasher after = some (m₂, answers₂) ∧
      m₂.lookup hasher key = some (.ofEntry a) ∧
      (LookupKVResult.ofEntry a).read m₂ =
        some ((m.noBindings.serves fl (before ++ after)).1.find key) := by
  obtain ⟨hbefore, hafter⟩ := Bindings.along_append.mp horderly
  obtain ⟨m', nodes, hm', h, -⟩ := (create_realizes hasher hmax hm).serves hbefore
  obtain rfl : m₁ = m' := congrArg Prod.fst (Option.some.inj (hm₁.symm.trans hm'))
  obtain ⟨m₂, nodes₂, hm₂, h₂, hkeeps⟩ := h.serves hafter
  obtain ⟨x, hx, hk⟩ := h.wf.present ⟨a, hlookup⟩
  have hxa : LookupKVResult.ofEntry x = .ofEntry a :=
    Option.some.inj ((h.wf.lookup_present hx hk).symm.trans hlookup)
  obtain ⟨hx₂, hk₂⟩ := hkeeps key hkept x hx hk
  have hlookup₂ := h₂.wf.lookup_present hx₂ hk₂
  obtain ⟨r, hr, hread⟩ := h₂.find_read key
  obtain rfl : r = .ofEntry x := Option.some.inj (hr.symm.trans hlookup₂)
  rw [hxa] at hlookup₂ hread
  refine ⟨m₂, _, hm₂, hlookup₂, ?_⟩
  rw [hread, Bindings.serves_append]

/-- The references to a key of a table with four buckets, after it has grown to eight, the key was
updated, and another key removed. -/
theorem references_stay_grown :
    ∃ (m m₁ m₂ : Map ℕ ℕ) (a : ℕ), create 8 = some m ∧
      m₁.lookup (fun _ => 7) 2 = some (.ofEntry a) ∧ m₂.lookup (fun _ => 7) 2 = some (.ofEntry a) ∧
      m₁.capacity = 4 ∧ (LookupKVResult.ofEntry a).read m₂ = some (some (2, 21)) := by
  obtain ⟨m, hm, -⟩ := create_represents (K := ℕ) (V := ℕ) (fun _ => 7)
    (show 2 ≤ (8 : Size).toNat by decide)
  have hbindings := noBindings_of_eight hm
  have horderly : m.noBindings.Orderly .exact (fun _ => 7)
      ([.call (.insert 1 10), .call (.insert 2 20)] ++
        [.call (.insert 3 30), .remove 1, .call (.update 2 21)]) := by
    rw [hbindings]
    decide +kernel
  obtain ⟨m₁, nodes₁, hm₁, h₁, -⟩ := (create_realizes (fun _ => 7) (by decide) hm).serves
    (Bindings.along_append.mp horderly).1
  have hcapacity : m₁.capacity = 4 := by
    rw [h₁.capacity, hbindings]
    decide +kernel
  have hfind : (m.noBindings.serves .exact [.call (.insert 1 10), .call (.insert 2 20)]).1.find 2 =
      some (2, 20) := by
    rw [hbindings]
    decide +kernel
  obtain ⟨-, a, ha, -, hk⟩ := h₁.find_some hfind
  have hlookup := h₁.wf.lookup_present ha hk
  obtain ⟨m₂, answers₂, -, hlookup₂, hread⟩ := references_stay .exact (fun _ => 7) 8 (by decide)
    m hm _ _ horderly m₁ _ hm₁ 2 a hlookup (by simp)
  refine ⟨m, m₁, m₂, a, hm, hlookup, hlookup₂, hcapacity, hread.trans ?_⟩
  rw [hbindings]
  decide +kernel

/-- **What the destructor leaves behind.** For every orderly run from the construction of the map:
when the map is destroyed, the entries that still live are those of the keys that are bound by then,
one for each, and they are as many as `count` returns. -/
theorem destroy_leaks (fl : Rounding) (hasher : K → Size) (maxCapacity : Size)
    (hmax : 2 ≤ maxCapacity.toNat) (m : Map K V) (hm : create maxCapacity = some m)
    (requests : List (Request K V)) (horderly : m.noBindings.Orderly fl hasher requests) :
    ∃ m' answers, m.serves fl hasher requests = some (m', answers) ∧
      ((liveEntries m'.destroy).map (payload m'.destroy)).Perm
        ((m.noBindings.serves fl requests).1.entries.map some) ∧
      (liveEntries m'.destroy).length = m'.count.toNat := by
  obtain ⟨m', nodes, hm', h, -⟩ := (create_realizes hasher hmax hm).serves horderly
  refine ⟨m', _, hm', ?_, ?_⟩
  · rw [← h.payloads]
    exact h.liveEntries_perm.map _
  · rw [count, h.wf.count]
    exact h.liveEntries_perm.length_eq

/-- Two of three entries outlive the map. -/
theorem destroy_leaks_two :
    ∃ m m' : Map ℕ ℕ, ∃ answers, create 8 = some m ∧
      m.serves .exact (fun _ => 7) [.call (.insert 1 10), .call (.insert 2 20),
        .call (.insert 3 30), .remove 1] = some (m', answers) ∧
      (liveEntries m'.destroy).length = 2 := by
  obtain ⟨m, hm, -⟩ := create_represents (K := ℕ) (V := ℕ) (fun _ => 7)
    (show 2 ≤ (8 : Size).toNat by decide)
  have hbindings := noBindings_of_eight hm
  obtain ⟨m', answers, hm', hperm, -⟩ := destroy_leaks .exact (fun _ => 7) 8 (by decide) m hm
    [.call (.insert 1 10), .call (.insert 2 20), .call (.insert 3 30), .remove 1]
    (by rw [hbindings]; decide +kernel)
  have hlength := hperm.length_eq
  rw [List.length_map, List.length_map, hbindings] at hlength
  exact ⟨m, m', answers, hm, hm', hlength.trans (by decide +kernel)⟩

end Coroutines.Map
