import Coroutines.Map.Removal

/-!
# What the references of a result designate

`insert` and `update` return references to a key and a value. Where the key was present they are
those of the stored entry, as `lookup` returns them. Where the call adds an entry they are those
of its own arguments, which are gone when it returns.
-/

namespace Coroutines.Map

open Function (update_self update_of_ne)

variable {K V : Type}

/-- An assignment through a reference to a value. -/
def assign (m : Map K V) (slot : Slot) (value : V) : Option (Map K V) :=
  match slot with
  | .entryValue a => do
      let heap ← m.heap.modify a fun e => { e with value := value }
      some { m with heap := heap }
  | _ => none

variable [DecidableEq K]

/-- The references are those of the entry for the key, which a lookup returns too; and what is
written through the reference to the value is what a lookup reads next. -/
structure InsertKVResult.Designates (hasher : K → Size) (m : Map K V) (key : K)
    (r : InsertKVResult) : Prop where
  slots : ∃ a, m.lookup hasher key = some (.ofEntry a) ∧
    r.key = .entryKey a ∧ r.value = .entryValue a
  written : ∀ value, ∃ m', m.assign r.value value = some m' ∧
    m'.find hasher key = some (some (key, value))

/-- The key is in the map: `lookup` converts to true. -/
def Contains (hasher : K → Size) (m : Map K V) (key : K) : Prop :=
  ∃ a, m.lookup hasher key = some (.ofEntry a)

/-- The call returns, with references that designate the entry for the key. -/
def ReturnsEntry (hasher : K → Size) (key : K) (call : Option (Map K V × InsertKVResult)) : Prop :=
  ∃ m r, call = some (m, r) ∧ r.Designates hasher m key

variable {hasher : K → Size} {m : Map K V} {nodes : List ℕ} {key : K}

/-! ## A key that is present -/

/-- A key that is not in the map is that of no entry. -/
theorem WF.absent (h : m.WF hasher nodes) (hnot : ¬ m.Contains hasher key) :
    ∀ a ∈ nodes, keyOf m.heap a ≠ some key :=
  fun _ ha hk => hnot ⟨_, h.lookup_present ha hk⟩

/-- A key that is in the map is that of an entry. -/
theorem WF.present (h : m.WF hasher nodes) (hcontains : m.Contains hasher key) :
    ∃ a ∈ nodes, keyOf m.heap a = some key := by
  obtain ⟨a, hlookup⟩ := hcontains
  by_contra hnone
  have habsent : ∀ a ∈ nodes, keyOf m.heap a ≠ some key := fun a ha hk => hnone ⟨a, ha, hk⟩
  rw [h.lookup_absent habsent] at hlookup
  cases hlookup

/-- References to the entry for the key designate it. -/
theorem WF.designates (h : m.WF hasher nodes) {a : ℕ} (ha : a ∈ nodes)
    (hk : keyOf m.heap a = some key) (inserted : Bool) :
    InsertKVResult.Designates hasher m key
      { key := .entryKey a, value := .entryValue a, inserted := inserted } where
  slots := ⟨a, h.lookup_present ha hk, rfl, rfl⟩
  written value := by
    obtain ⟨heap, hset, hnext, hpay⟩ := setValue_spec hk value
    refine ⟨{ m with heap := heap }, ?_, ?_⟩
    · simp only [assign, hset, Option.bind_eq_bind, Option.bind_some]
    · apply (h.setValue hk value hnext hpay).find_present ha
      show payload heap a = some (key, value)
      rw [hpay, update_self]

/-- **An update of a key that is present** returns references to its entry, if it returns. -/
theorem WF.returnsEntry_update_iff [ValueType V] (h : m.WF hasher nodes) (fl : Rounding)
    (value : V) {a : ℕ} (ha : a ∈ nodes) (hk : keyOf m.heap a = some key) :
    ReturnsEntry hasher key (m.update fl hasher key value) ↔
      ValueType.triviallyDestructible V = true := by
  by_cases htrivial : ValueType.triviallyDestructible V = true
  · obtain ⟨heap, hupdate, hnext, hpay⟩ := h.update_present htrivial fl value ha hk
    have hp : payload heap a = some (key, value) := by rw [hpay, update_self]
    refine iff_of_true ⟨_, _, hupdate, ?_⟩ htrivial
    exact (h.setValue hk value hnext hpay).designates ha (keyOf_of_payload hp) true
  · refine iff_of_false ?_ htrivial
    rintro ⟨m', r, hcall, -⟩
    rw [h.update_destroyed htrivial fl value ha hk] at hcall
    cases hcall

/-! ## A key that is absent -/

theorem argResult_not_designates (m : Map K V) :
    ¬ InsertKVResult.Designates hasher m key argResult := by
  rintro ⟨⟨a, -, hkey, -⟩, -⟩
  cases hkey

/-- **A call that adds an entry** returns references to its arguments, whether or not the
table then grows. -/
theorem WF.not_returnsEntry_insert (h : m.WF hasher nodes) (fl : Rounding) (value : V)
    (habsent : ∀ a ∈ nodes, keyOf m.heap a ≠ some key) :
    ¬ ReturnsEntry hasher key (m.insert fl hasher key value) := by
  rintro ⟨m', r, hcall, hdesignates⟩
  obtain ⟨b, a, heap, first, -, -, heq⟩ := h.insert_absent fl value habsent
  rw [heq] at hcall
  obtain ⟨m₁, -, hpair⟩ := Option.map_eq_some_iff.mp hcall
  obtain ⟨-, rfl⟩ := Prod.mk.inj hpair
  exact argResult_not_designates m' hdesignates

/-! ## Both calls -/

/-- The first key of an empty map. -/
theorem insert_not_returnsEntry :
    ¬ ∀ (m : Map ℕ ℕ) (nodes : List ℕ), m.WF (fun _ => 7) nodes → ∀ key value,
      ReturnsEntry (fun _ => 7) key (m.insert .binary64 (fun _ => 7) key value) ∧
      ReturnsEntry (fun _ => 7) key (m.update .binary64 (fun _ => 7) key value) := by
  intro hall
  obtain ⟨m, -, hrep⟩ := create_represents (K := ℕ) (V := ℕ) (fun _ => 7)
    (show 2 ≤ (2 : Size).toNat by decide)
  have habsent : ∀ a ∈ ([] : List ℕ), keyOf m.heap a ≠ some 1 :=
    fun a ha => absurd ha List.not_mem_nil
  exact hrep.wf.not_returnsEntry_insert .binary64 10 habsent (hall m [] hrep.wf 1 10).1

/-- **The references are those of the stored entry exactly when the key was present.** For every
well-formed table, every hasher, key and value, with or without a resize: `insert` and `update`
return references that designate the entry for the key if and only if the key was in the map
before the call; an `update` of such a key returns where the destructor of the values is
trivial. -/
theorem returnsEntry_iff_contains [ValueType V] (fl : Rounding) (hasher : K → Size) (m : Map K V)
    (nodes : List ℕ) (h : m.WF hasher nodes) (key : K) (value : V) :
    (ReturnsEntry hasher key (m.insert fl hasher key value) ↔ m.Contains hasher key) ∧
      (ReturnsEntry hasher key (m.update fl hasher key value) ↔
        m.Contains hasher key ∧ ValueType.triviallyDestructible V = true) := by
  by_cases hcontains : m.Contains hasher key
  · obtain ⟨a, ha, hk⟩ := h.present hcontains
    constructor
    · refine iff_of_true ⟨m, _, h.insert_present fl value ha hk, ?_⟩ hcontains
      exact h.designates ha hk false
    · rw [and_iff_right hcontains]
      exact h.returnsEntry_update_iff fl value ha hk
  · have habsent := h.absent hcontains
    have hnot := h.not_returnsEntry_insert fl value habsent
    constructor
    · exact iff_of_false hnot hcontains
    · rw [h.update_eq_insert_of_absent fl value habsent]
      exact iff_of_false hnot fun hand => hcontains hand.1

/-- A table with one key: updating that key, and adding another behind it. -/
theorem returnsEntry_iff_contains_one_key :
    ∃ (m : Map ℕ ℕ) (nodes : List ℕ), m.WF (fun _ => 7) nodes ∧
      ReturnsEntry (fun _ => 7) 1 (m.update .binary64 (fun _ => 7) 1 11) ∧
      ¬ ReturnsEntry (fun _ => 7) 2 (m.insert .binary64 (fun _ => 7) 2 20) := by
  obtain ⟨m, -, hrep⟩ := create_represents (K := ℕ) (V := ℕ) (fun _ => 7)
    (show 2 ≤ (2 : Size).toNat by decide)
  obtain ⟨m', r, nodes, -, -, hrep'⟩ := hrep.insert .binary64 1 10 (by decide)
  obtain ⟨a, ha, hp⟩ : ∃ a ∈ nodes, payload m'.heap a = some (1, 10) :=
    (hrep'.binds 1 10).mp (by simp [specCall])
  have hone : m'.Contains (fun _ => 7) 1 :=
    ⟨a, hrep'.wf.lookup_present ha (keyOf_of_payload hp)⟩
  have htwo : ¬ m'.Contains (fun _ => 7) 2 := by
    intro hcontains
    obtain ⟨a, ha, hk⟩ := hrep'.wf.present hcontains
    obtain ⟨value, -, hl⟩ := hrep'.lookup_some ha hk
    exact absurd hl (by simp [specCall])
  exact ⟨m', nodes, hrep'.wf,
    (returnsEntry_iff_contains .binary64 _ m' nodes hrep'.wf 1 11).2.mpr ⟨hone, rfl⟩,
    mt (returnsEntry_iff_contains .binary64 _ m' nodes hrep'.wf 2 20).1.mp htwo⟩

end Coroutines.Map
