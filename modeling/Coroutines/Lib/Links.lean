import Mathlib.Data.List.Nodup
import Mathlib.Data.Set.Insert

/-!
# Linked lists in a link map

A link map gives each node the node after it, `none` standing for the null
pointer. `Chain next p l` says that the list that starts at the pointer `p` and
follows `next` visits exactly the nodes of `l` and then ends; `Owns next p S`
that it visits each node of the set `S` once and no other; `Linked next P p a`
that it reaches `a` through nodes that all satisfy `P`; `Ends next P p` that it
comes to an end through such nodes.
-/

namespace Links

variable {α : Type*}

/-- The list from `p` along `next` is `l`. -/
def Chain (next : α → Option α) : Option α → List α → Prop
  | p, [] => p = none
  | p, a :: l => p = some a ∧ Chain next (next a) l

@[simp] theorem chain_nil {next : α → Option α} {p : Option α} :
    Chain next p [] ↔ p = none := Iff.rfl

@[simp] theorem chain_cons {next : α → Option α} {p : Option α} {a : α} {l : List α} :
    Chain next p (a :: l) ↔ p = some a ∧ Chain next (next a) l := Iff.rfl

@[simp] theorem chain_none {next : α → Option α} {l : List α} :
    Chain next none l ↔ l = [] := by
  cases l <;> simp

theorem chain_some {next : α → Option α} {a : α} {l : List α} :
    Chain next (some a) l ↔ ∃ l', l = a :: l' ∧ Chain next (next a) l' := by
  cases l with
  | nil => simp
  | cons b l =>
      simp only [chain_cons, Option.some.injEq, List.cons.injEq]
      constructor
      · rintro ⟨rfl, h⟩
        exact ⟨l, ⟨rfl, rfl⟩, h⟩
      · rintro ⟨l', ⟨rfl, rfl⟩, h⟩
        exact ⟨rfl, h⟩

/-- A chain only depends on the links of its own nodes. -/
theorem Chain.congr {next next' : α → Option α} {p : Option α} {l : List α}
    (h : Chain next p l) (heq : ∀ a ∈ l, next' a = next a) : Chain next' p l := by
  induction l generalizing p with
  | nil => exact h
  | cons a l ih =>
      refine ⟨h.1, ?_⟩
      rw [heq a List.mem_cons_self]
      exact ih h.2 fun b hb => heq b (List.mem_cons_of_mem _ hb)

theorem Chain.unique {next : α → Option α} {p : Option α} {l l' : List α}
    (h : Chain next p l) (h' : Chain next p l') : l = l' := by
  induction l generalizing p l' with
  | nil =>
      rw [chain_nil] at h
      subst h
      exact (chain_none.mp h').symm
  | cons a l ih =>
      obtain ⟨rfl, hl⟩ := h
      obtain ⟨m, rfl, hm⟩ := chain_some.mp h'
      rw [ih hl hm]

/-- What follows a node of a chain is the chain from its link. -/
theorem Chain.rest {next : α → Option α} {p : Option α} {l m : List α} {a : α}
    (h : Chain next p (l ++ a :: m)) : Chain next (next a) m := by
  induction l generalizing p with
  | nil => exact h.2
  | cons b l ih => exact ih h.2

/-- **A list that ends has no cycle.** -/
theorem Chain.nodup {next : α → Option α} {p : Option α} {l : List α}
    (h : Chain next p l) : l.Nodup := by
  induction l generalizing p with
  | nil => exact List.nodup_nil
  | cons a l ih =>
      refine List.nodup_cons.mpr ⟨fun ha => ?_, ih h.2⟩
      obtain ⟨l₁, l₂, hsplit⟩ := List.append_of_mem ha
      have hrest := h.2
      rw [hsplit] at hrest
      have hlen := congrArg List.length (hrest.unique hrest.rest)
      rw [List.length_append, List.length_cons] at hlen
      omega

/-- Writing the link of a node off the chain keeps the chain. -/
theorem Chain.update [DecidableEq α] {next : α → Option α} {p : Option α} {l : List α}
    {x : α} {q : Option α} (h : Chain next p l) (hx : x ∉ l) :
    Chain (Function.update next x q) p l := by
  refine h.congr fun a ha => Function.update_of_ne ?_ _ _
  rintro rfl
  exact hx ha

/-- Linking a fresh node in front of a chain. -/
theorem Chain.push [DecidableEq α] {next : α → Option α} {p : Option α} {l : List α}
    {x : α} (h : Chain next p l) (hx : x ∉ l) :
    Chain (Function.update next x p) (some x) (x :: l) := by
  refine ⟨rfl, ?_⟩
  rw [Function.update_self]
  exact h.update hx

/-- Linking a node behind the last one of a chain. -/
theorem Chain.snoc [DecidableEq α] {next : α → Option α} {p : Option α} {l : List α}
    {z a : α} (h : Chain next p l) (hnd : l.Nodup) (hz : l.getLast? = some z)
    (ha : next a = none) (hal : a ∉ l) :
    Chain (Function.update next z (some a)) p (l ++ [a]) := by
  induction l generalizing p with
  | nil => cases hz
  | cons b l ih =>
      obtain ⟨rfl, hl⟩ := h
      obtain ⟨hb, hnd⟩ := List.nodup_cons.mp hnd
      rw [List.cons_append, chain_cons]
      refine ⟨rfl, ?_⟩
      rcases List.eq_nil_or_concat' l with rfl | ⟨m, y, rfl⟩
      · have hbz : b = z := by simpa using hz
        have haz : a ≠ z := fun haz => hal (by simp [haz, hbz])
        rw [hbz, Function.update_self, List.nil_append, chain_cons,
          Function.update_of_ne haz, ha]
        exact ⟨rfl, rfl⟩
      · have hyz : y = z := by
          rw [← List.cons_append, List.getLast?_concat] at hz
          exact Option.some.inj hz
        have hbz : b ≠ z := by
          rintro rfl
          exact hb (by simp [hyz])
        rw [Function.update_of_ne hbz]
        exact ih hl hnd (by simp [hyz]) fun hmem => hal (List.mem_cons_of_mem _ hmem)

/-! ## The set of nodes of a list -/

/-- The list from `p` visits each node of `S` exactly once, and nothing else. -/
def Owns (next : α → Option α) (p : Option α) (S : Set α) : Prop :=
  ∃ l, Chain next p l ∧ l.Nodup ∧ ∀ a, a ∈ l ↔ a ∈ S

theorem Owns.congr {next next' : α → Option α} {p : Option α} {S S' : Set α}
    (h : Owns next p S) (hS : ∀ a, a ∈ S ↔ a ∈ S') (heq : ∀ a ∈ S, next' a = next a) :
    Owns next' p S' := by
  obtain ⟨l, hc, hnd, hmem⟩ := h
  exact ⟨l, hc.congr fun a ha => heq a ((hmem a).mp ha), hnd,
    fun a => (hmem a).trans (hS a)⟩

@[simp] theorem owns_none {next : α → Option α} {S : Set α} :
    Owns next none S ↔ S = ∅ := by
  constructor
  · rintro ⟨l, hc, _, hmem⟩
    rw [chain_none] at hc
    subst hc
    exact Set.eq_empty_iff_forall_notMem.mpr fun a ha => by simpa using (hmem a).mpr ha
  · rintro rfl
    exact ⟨[], rfl, List.nodup_nil, by simp⟩

/-- Pushing a node off the list onto its front. -/
theorem Owns.push [DecidableEq α] {next : α → Option α} {p : Option α} {S : Set α} {x : α}
    (h : Owns next p S) (hx : x ∉ S) :
    Owns (Function.update next x p) (some x) (insert x S) := by
  obtain ⟨l, hc, hnd, hmem⟩ := h
  have hxl : x ∉ l := fun hxl => hx ((hmem x).mp hxl)
  refine ⟨x :: l, hc.push hxl, List.nodup_cons.mpr ⟨hxl, hnd⟩, fun a => ?_⟩
  rw [List.mem_cons, Set.mem_insert_iff, hmem]

/-- The node in front is one of the list's, and its link leads to the others. -/
theorem Owns.pop {next : α → Option α} {x : α} {S : Set α} (h : Owns next (some x) S) :
    x ∈ S ∧ Owns next (next x) (S \ {x}) := by
  obtain ⟨l, hc, hnd, hmem⟩ := h
  obtain ⟨l', rfl, hc'⟩ := chain_some.mp hc
  obtain ⟨hx, hnd'⟩ := List.nodup_cons.mp hnd
  refine ⟨(hmem x).mp List.mem_cons_self, l', hc', hnd', fun a => ?_⟩
  rw [Set.mem_sdiff, ← hmem a, List.mem_cons, Set.mem_singleton_iff]
  constructor
  · intro ha
    exact ⟨Or.inr ha, fun hax => hx (hax ▸ ha)⟩
  · rintro ⟨hax | ha, hne⟩
    · exact absurd hax hne
    · exact ha

/-! ## Reaching a node through nodes of one kind -/

/-- `a` can be reached from the pointer `p` through nodes that satisfy `P`. -/
inductive Linked (next : α → Option α) (P : α → Prop) : Option α → α → Prop
  | here {a : α} : P a → Linked next P (some a) a
  | there {a b : α} : P b → Linked next P (next b) a → Linked next P (some b) a

/-- What is linked from the start of a chain is on it. -/
theorem Linked.mem_chain {next : α → Option α} {P : α → Prop} {p : Option α} {a : α} {l : List α}
    (h : Linked next P p a) (hc : Chain next p l) : a ∈ l := by
  induction h generalizing l with
  | here _ =>
      obtain ⟨l', rfl, -⟩ := chain_some.mp hc
      exact List.mem_cons_self
  | there _ _ ih =>
      obtain ⟨l', rfl, hc'⟩ := chain_some.mp hc
      exact List.mem_cons_of_mem _ (ih hc')

/-- Links through `P` survive any change that keeps `P` and the links out of it. -/
theorem Linked.mono {next next' : α → Option α} {P P' : α → Prop} {p : Option α} {a : α}
    (h : Linked next P p a) (hP : ∀ b, P b → P' b ∧ next' b = next b) :
    Linked next' P' p a := by
  induction h with
  | here ha => exact .here (hP _ ha).1
  | there hb _ ih =>
      refine .there (hP _ hb).1 ?_
      rw [(hP _ hb).2]
      exact ih

/-- The list from `p` ends, and all its nodes satisfy `P`. -/
inductive Ends (next : α → Option α) (P : α → Prop) : Option α → Prop
  | null : Ends next P none
  | node {a : α} : P a → Ends next P (next a) → Ends next P (some a)

/-- A list still ends when some of its links are cleared. -/
theorem Ends.mono {next next' : α → Option α} {P P' : α → Prop} {p : Option α}
    (h : Ends next P p) (hP : ∀ a, P a → P' a ∧ (next' a = next a ∨ next' a = none)) :
    Ends next' P' p := by
  induction h with
  | null => exact .null
  | node ha _ ih =>
      obtain ⟨ha', hsame | hnone⟩ := hP _ ha
      · refine .node ha' ?_
        rw [hsame]
        exact ih
      · refine .node ha' ?_
        rw [hnone]
        exact .null

/-- When `b` drops out of `P`, what was reached past it is reached from the link
out of `b`. -/
theorem Linked.cut {next : α → Option α} {P : α → Prop} {p : Option α} {a b : α}
    (h : Linked next P p a) (hab : a ≠ b) :
    Linked next (fun x => P x ∧ x ≠ b) p a ∨
      Linked next (fun x => P x ∧ x ≠ b) (next b) a := by
  induction h with
  | here ha => exact Or.inl (.here ⟨ha, hab⟩)
  | @there a c hc _ ih =>
      by_cases hcb : c = b
      · subst hcb
        rcases ih hab with h | h
        · exact Or.inr h
        · exact Or.inr h
      · rcases ih hab with h | h
        · exact Or.inl (.there ⟨hc, hcb⟩ h)
        · exact Or.inr h

end Links
