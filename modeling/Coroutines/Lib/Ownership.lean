import Coroutines.Lib.Transition
import Mathlib.Data.List.AList

/-!
# Owning wrappers

The objects of a wrapper class hold a handle each, or nothing. What the class does with the
handle of an object that is assigned to, moved from or destroyed are parameters. A handle that
is handed to an object was never used before.

`System.ReachableUnder (Careful c)` are the runs on which no handle is copied or forgotten. On
these every handle is accounted for; a step against it can be continued to where one is not.
-/

namespace Ownership

open Transition

/-! ## The model -/

structure Wrapper (α : Type) where
  /-- What an object holds that owns nothing. -/
  null : α
  /-- An object keeps its handle when another one takes it over. -/
  copies : Bool
  assigns : Bool
  /-- The assignment disposes of the handle that it replaces. -/
  disposes : Bool
  /-- The destructor disposes of the handle. -/
  frees : Bool
  releases : Bool
  swaps : Bool
  /-- An object can be written to without a look at what it holds. -/
  puts : Bool

structure State (α : Type) where
  /-- The objects that exist, by their addresses, and what they hold. -/
  objects : AList fun _ : ℕ => α
  /-- History: what was handed to an object, copied, disposed of, released and forgotten. -/
  acquired : List α
  duplicated : List α
  disposed : List α
  released : List α
  lost : List α

inductive Op (α : Type)
  | construct (o : ℕ) (value : α)
  | transfer (o other : ℕ)         -- `o` is made from an object that is not needed any more
  | assign (o rhs : ℕ)
  | release (o : ℕ)
  | swap (o other : ℕ)
  | put (o : ℕ) (value : α)
  | destroy (o : ℕ)

variable {α : Type}

def initial : State α where
  objects := ∅
  acquired := []
  duplicated := []
  disposed := []
  released := []
  lost := []

namespace State

variable (c : Wrapper α) (s : State α)

def set (o : ℕ) (value : α) : State α := { s with objects := s.objects.insert o value }

/-- Another object has taken over what the object holds. -/
def leave (o : ℕ) (value : α) : State α :=
  if c.copies then { s with duplicated := s.duplicated ++ [value] } else s.set o c.null

/-- What the objects hold. -/
def held : List α := s.objects.entries.map Sigma.snd

variable [DecidableEq α]

/-- An object is done with what it held, and the class disposes of it or not. -/
def drop (disposes : Bool) (value : α) : State α :=
  if value = c.null then s
  else if disposes then { s with disposed := s.disposed ++ [value] }
  else { s with lost := s.lost ++ [value] }

end State

variable [DecidableEq α] (c : Wrapper α)

def step (s : State α) : Op α → Option (State α)
  | .construct o value =>
      if o ∉ s.objects ∧ (value = c.null ∨ value ∉ s.acquired) then
        some ({ s with acquired := s.acquired ++ [value] }.set o value)
      else none
  | .transfer o other => do
      let value ← s.objects.lookup other
      if o ∈ s.objects then none else some ((s.leave c other value).set o value)
  | .assign o rhs => do
      let old ← s.objects.lookup o
      let value ← s.objects.lookup rhs
      if c.assigns then
        if o = rhs then some s else some (((s.drop c c.disposes old).leave c rhs value).set o value)
      else none
  | .release o => do
      let value ← s.objects.lookup o
      if c.releases then some ({ s with released := s.released ++ [value] }.set o c.null)
      else none
  | .swap o other => do
      let value ← s.objects.lookup o
      let value' ← s.objects.lookup other
      if c.swaps then some ((s.set o value').set other value) else none
  | .put o value => do
      let old ← s.objects.lookup o
      if c.puts ∧ (value = c.null ∨ value ∉ s.acquired) then
        some ({ s.drop c false old with acquired := s.acquired ++ [value] }.set o value)
      else none
  | .destroy o => do
      let value ← s.objects.lookup o
      some { s.drop c c.frees value with objects := s.objects.erase o }

def system : System (State α) (Op α) where
  Init s := s = initial
  step := step c

/-- No handle is copied and none is forgotten. -/
def Careful (s : State α) : Op α → Prop
  | .transfer _ other => c.copies = true → s.objects.lookup other = some c.null
  | .assign o rhs => o ≠ rhs →
      (c.copies = true → s.objects.lookup rhs = some c.null) ∧
        (c.disposes = false → s.objects.lookup o = some c.null)
  | .put o _ => c.puts = true → s.objects.lookup o = some c.null
  | .destroy o => c.frees = false → s.objects.lookup o = some c.null
  | _ => True

/-- What an owner is for. -/
structure State.Sound (s : State α) : Prop where
  unique : ∀ a b v, v ≠ c.null → s.objects.lookup a = some v → s.objects.lookup b = some v →
    a = b
  /-- No object holds what is gone. -/
  live : ∀ a v, v ≠ c.null → s.objects.lookup a = some v → v ∉ s.disposed ∧ v ∉ s.released
  disposedOnce : ∀ v, v ≠ c.null → s.disposed.count v ≤ 1
  /-- Nothing is forgotten once all objects are gone, and nothing goes twice. -/
  complete : s.objects = ∅ → ∀ v ∈ s.acquired, v ≠ c.null →
    s.disposed.count v + s.released.count v = 1

/-! ## What the objects hold -/

omit [DecidableEq α] in
theorem perm_kerase {o : ℕ} {m : α} {l : List (Sigma fun _ : ℕ => α)}
    (h : l.dlookup o = some m) : l.Perm (⟨o, m⟩ :: l.kerase o) := by
  induction l with
  | nil => cases h
  | cons e l ih =>
      by_cases ho : o = e.1
      · subst ho
        rw [List.dlookup_cons_eq] at h
        rw [List.kerase_cons_eq rfl, ← Option.some.inj h]
      · rw [List.dlookup_cons_ne l e ho] at h
        rw [List.kerase_cons_ne ho]
        exact ((ih h).cons e).trans (List.Perm.swap _ _ _)

variable {c} {s t : State α}

section
variable {o : ℕ} {m value : α} (v : α)

/-- What the other objects hold. -/
def State.others (s : State α) (o : ℕ) : List α := (s.objects.erase o).entries.map Sigma.snd

theorem count_held (h : s.objects.lookup o = some m) :
    s.held.count v = [m].count v + (s.others o).count v := by
  have hperm := (perm_kerase h).map Sigma.snd
  rw [State.held, hperm.count_eq, List.map_cons, ← List.singleton_append, List.count_append]
  rfl

theorem count_held_set : (s.set o value).held.count v = [value].count v + (s.others o).count v := by
  rw [State.held, State.set, AList.entries_insert, List.map_cons, ← List.singleton_append,
    List.count_append]
  rfl

omit [DecidableEq α] in
theorem others_of_notMem (h : o ∉ s.objects) : s.others o = s.held := by
  have herase : s.objects.erase o = s.objects := AList.ext (List.kerase_of_notMem_keys h)
  rw [State.others, herase, State.held]

theorem count_null (h : v ≠ c.null) : [c.null].count v = 0 :=
  List.count_eq_zero.mpr fun hmem => h (List.mem_singleton.mp hmem)

theorem one_le_held (h : s.objects.lookup o = some v) : 1 ≤ s.held.count v := by
  rw [count_held v h, List.count_singleton_self]
  exact Nat.le_add_right 1 _

theorem two_le_held {a b : ℕ} (hne : a ≠ b) (ha : s.objects.lookup a = some v)
    (hb : s.objects.lookup b = some v) : 2 ≤ s.held.count v := by
  have hrest : (s.objects.erase a).lookup b = some v := by
    rw [AList.lookup_erase_ne hne.symm]
    exact hb
  have hone : 1 ≤ (s.others a).count v :=
    one_le_held (s := { s with objects := s.objects.erase a }) v hrest
  rw [count_held v ha, List.count_singleton_self]
  exact Nat.add_le_add_left hone 1

end

/-! ## What the operations do -/

section
variable {o : ℕ} {value : α}

@[simp] theorem drop_objects (disposes : Bool) :
    (s.drop c disposes value).objects = s.objects := by
  rw [State.drop]
  split_ifs <;> rfl

@[simp] theorem drop_acquired (disposes : Bool) :
    (s.drop c disposes value).acquired = s.acquired := by
  rw [State.drop]
  split_ifs <;> rfl

@[simp] theorem drop_duplicated (disposes : Bool) :
    (s.drop c disposes value).duplicated = s.duplicated := by
  rw [State.drop]
  split_ifs <;> rfl

@[simp] theorem drop_released (disposes : Bool) :
    (s.drop c disposes value).released = s.released := by
  rw [State.drop]
  split_ifs <;> rfl

omit [DecidableEq α]

@[simp] theorem leave_acquired : (s.leave c o value).acquired = s.acquired := by
  rw [State.leave]
  split_ifs <;> rfl

@[simp] theorem leave_disposed : (s.leave c o value).disposed = s.disposed := by
  rw [State.leave]
  split_ifs <;> rfl

@[simp] theorem leave_released : (s.leave c o value).released = s.released := by
  rw [State.leave]
  split_ifs <;> rfl

@[simp] theorem leave_lost : (s.leave c o value).lost = s.lost := by
  rw [State.leave]
  split_ifs <;> rfl

theorem leave_lookup {a : ℕ} (hne : a ≠ o) :
    (s.leave c o value).objects.lookup a = s.objects.lookup a := by
  rw [State.leave]
  split
  · rfl
  · exact AList.lookup_insert_ne hne

end

/-- What each operation can be. -/
inductive Case (c : Wrapper α) (s : State α) : Op α → State α → Prop
  | construct {o : ℕ} {value : α} (ho : o ∉ s.objects)
      (hf : value = c.null ∨ value ∉ s.acquired) :
      Case c s (.construct o value) ({ s with acquired := s.acquired ++ [value] }.set o value)
  | transfer {o other : ℕ} {value : α} (hv : s.objects.lookup other = some value)
      (ho : o ∉ s.objects) : Case c s (.transfer o other) ((s.leave c other value).set o value)
  | self {o : ℕ} : Case c s (.assign o o) s
  | assign {o rhs : ℕ} {old value : α} (ho : s.objects.lookup o = some old)
      (hv : s.objects.lookup rhs = some value) (hne : o ≠ rhs) :
      Case c s (.assign o rhs) (((s.drop c c.disposes old).leave c rhs value).set o value)
  | release {o : ℕ} {value : α} (hv : s.objects.lookup o = some value) :
      Case c s (.release o) ({ s with released := s.released ++ [value] }.set o c.null)
  | swap {o other : ℕ} {value value' : α} (hv : s.objects.lookup o = some value)
      (hv' : s.objects.lookup other = some value') :
      Case c s (.swap o other) ((s.set o value').set other value)
  | put {o : ℕ} {old value : α} (hputs : c.puts = true) (ho : s.objects.lookup o = some old)
      (hf : value = c.null ∨ value ∉ s.acquired) :
      Case c s (.put o value)
        ({ s.drop c false old with acquired := s.acquired ++ [value] }.set o value)
  | destroy {o : ℕ} {value : α} (hv : s.objects.lookup o = some value) :
      Case c s (.destroy o) { s.drop c c.frees value with objects := s.objects.erase o }

theorem step_case {op : Op α} (hs : step c s op = some t) : Case c s op t := by
  cases op with
  | construct o value =>
      obtain ⟨⟨ho, hf⟩, heq⟩ := Option.ite_none_right_eq_some.mp hs
      rw [← Option.some.inj heq]
      exact .construct ho hf
  | transfer o other =>
      obtain ⟨value, hv, hrest⟩ := Option.bind_eq_some_iff.mp hs
      obtain ⟨ho, heq⟩ := Option.ite_none_left_eq_some.mp hrest
      rw [← Option.some.inj heq]
      exact .transfer hv ho
  | assign o rhs =>
      obtain ⟨old, ho, hrest⟩ := Option.bind_eq_some_iff.mp hs
      obtain ⟨value, hv, hrest⟩ := Option.bind_eq_some_iff.mp hrest
      obtain ⟨-, hrest⟩ := Option.ite_none_right_eq_some.mp hrest
      by_cases hself : o = rhs
      · rw [if_pos hself] at hrest
        rw [← hself, ← Option.some.inj hrest]
        exact .self
      · rw [if_neg hself] at hrest
        rw [← Option.some.inj hrest]
        exact .assign ho hv hself
  | release o =>
      obtain ⟨value, hv, hrest⟩ := Option.bind_eq_some_iff.mp hs
      obtain ⟨-, heq⟩ := Option.ite_none_right_eq_some.mp hrest
      rw [← Option.some.inj heq]
      exact .release hv
  | swap o other =>
      obtain ⟨value, hv, hrest⟩ := Option.bind_eq_some_iff.mp hs
      obtain ⟨value', hv', hrest⟩ := Option.bind_eq_some_iff.mp hrest
      obtain ⟨-, heq⟩ := Option.ite_none_right_eq_some.mp hrest
      rw [← Option.some.inj heq]
      exact .swap hv hv'
  | put o value =>
      obtain ⟨old, ho, hrest⟩ := Option.bind_eq_some_iff.mp hs
      obtain ⟨⟨hputs, hf⟩, heq⟩ := Option.ite_none_right_eq_some.mp hrest
      rw [← Option.some.inj heq]
      exact .put hputs ho hf
  | destroy o =>
      obtain ⟨value, hv, heq⟩ := Option.bind_eq_some_iff.mp hs
      rw [← Option.some.inj heq]
      exact .destroy hv

/-! ## The accounts -/

section
variable {o : ℕ} {v : α} (hv : v ≠ c.null)
include hv

/-- What an object is done with is disposed of or forgotten. -/
theorem drop_count (s : State α) (value : α) (disposes : Bool) :
    (s.drop c disposes value).disposed.count v + (s.drop c disposes value).lost.count v =
      s.disposed.count v + s.lost.count v + [value].count v := by
  rw [State.drop]
  split
  · rename_i hnull
    rw [hnull, count_null v hv, Nat.add_zero]
  · split
    · rw [List.count_append, Nat.add_right_comm]
    · rw [List.count_append, Nat.add_assoc]

/-- What is taken over is held by one object more where the class copies. -/
theorem leave_count {value : α} (h : s.objects.lookup o = some value) :
    (s.leave c o value).held.count v + [value].count v + s.duplicated.count v =
      s.held.count v + (s.leave c o value).duplicated.count v := by
  rw [State.leave]
  split
  · rw [List.count_append, Nat.add_assoc, Nat.add_comm ([value].count v)]
    rfl
  · rw [count_held_set, count_null v hv, count_held v h, Nat.zero_add,
      Nat.add_comm ([value].count v)]
    rfl

end

/-- **The balance of a handle**: what was handed out and copied is held, disposed of, released
or forgotten. -/
def State.Balanced (c : Wrapper α) (s : State α) : Prop :=
  ∀ v, v ≠ c.null → s.held.count v + s.disposed.count v + s.released.count v + s.lost.count v =
    s.acquired.count v + s.duplicated.count v

omit [DecidableEq α] in
theorem notMem_leave {o other : ℕ} {value : α} (hv : s.objects.lookup other = some value)
    (ho : o ∉ s.objects) : o ∉ (s.leave c other value).objects := by
  have hne : o ≠ other := by
    rintro rfl
    rw [AList.lookup_eq_none.mpr ho] at hv
    cases hv
  apply AList.lookup_eq_none.mp
  rw [leave_lookup hne]
  exact AList.lookup_eq_none.mpr ho

/-- **The balance rule**, for every class and every operation. -/
theorem State.Balanced.step (h : s.Balanced c) {op : Op α} (hs : step c s op = some t) :
    t.Balanced c := by
  intro v hv
  have hbalance := h v hv
  cases step_case hs with
  | @construct o value ho hf =>
      have hheld : (s.set o value).held.count v = [value].count v + s.held.count v := by
        rw [count_held_set, others_of_notMem ho]
      show (s.set o value).held.count v + _ + _ + _ = (s.acquired ++ [value]).count v + _
      rw [List.count_append, hheld]
      simp only [State.set]
      omega
  | @transfer o other value hval ho =>
      have hleave := leave_count hv hval
      rw [count_held_set, others_of_notMem (notMem_leave hval ho)]
      simp only [State.set, leave_acquired, leave_disposed, leave_released, leave_lost]
      omega
  | self => exact hbalance
  | @assign o rhs old value ho hval hne =>
      have hdrop := drop_count hv s old c.disposes
      have hsame : (s.drop c c.disposes old).held = s.held := by
        rw [State.held, drop_objects, State.held]
      have hrhs : (s.drop c c.disposes old).objects.lookup rhs = some value := by
        rw [drop_objects]
        exact hval
      have hleave := leave_count hv hrhs
      have hlhs : ((s.drop c c.disposes old).leave c rhs value).objects.lookup o = some old := by
        rw [leave_lookup hne, drop_objects]
        exact ho
      have hold := count_held v hlhs
      rw [count_held_set]
      rw [hsame, drop_duplicated] at hleave
      simp only [State.set, leave_acquired, leave_disposed, leave_released, leave_lost,
        drop_acquired, drop_released]
      omega
  | @release o value hval =>
      have hold := count_held v hval
      show (s.set o c.null).held.count v + _ + (s.released ++ [value]).count v + _ = _
      rw [List.count_append, count_held_set, count_null v hv]
      simp only [State.set]
      omega
  | @swap o other value value' hval hval' =>
      have hother : (s.set o value').objects.lookup other = some value' := by
        by_cases hself : other = o
        · subst hself
          exact AList.lookup_insert s.objects
        · rw [← hval']
          exact AList.lookup_insert_ne hself
      have hmid := count_held v hother
      rw [count_held_set] at hmid
      have hold := count_held v hval
      rw [count_held_set]
      simp only [State.set] at *
      omega
  | @put o old value hputs ho hf =>
      have hdrop := drop_count hv s old false
      have hold := count_held v ho
      have hheld : (s.set o value).held.count v = [value].count v + (s.others o).count v :=
        count_held_set v
      have hsame :
          ({ s.drop c false old with acquired := s.acquired ++ [value] }.set o value).held =
            (s.set o value).held := by
        simp only [State.held, State.set, drop_objects]
      rw [hsame, hheld]
      simp only [State.set, drop_duplicated, drop_released, List.count_append]
      omega
  | @destroy o value hval =>
      have hdrop := drop_count hv s value c.frees
      have hold := count_held v hval
      show (s.others o).count v + _ + _ + _ = _
      simp only [drop_acquired, drop_duplicated, drop_released]
      omega

/-- Every handle is handed out once. -/
def State.HandedOnce (c : Wrapper α) (s : State α) : Prop :=
  ∀ v, v ≠ c.null → s.acquired.count v ≤ 1

/-- A handle that was never used before is handed out. -/
theorem State.HandedOnce.hand (h : s.HandedOnce c) {value : α}
    (hf : value = c.null ∨ value ∉ s.acquired) {v : α} (hv : v ≠ c.null) :
    (s.acquired ++ [value]).count v ≤ 1 := by
  rw [List.count_append]
  rcases hf with rfl | hf
  · rw [count_null v hv]
    exact h v hv
  · by_cases hvalue : v = value
    · subst hvalue
      rw [List.count_eq_zero.mpr hf, List.count_singleton_self]
    · rw [List.count_eq_zero.mpr fun hmem => hvalue (List.mem_singleton.mp hmem)]
      exact h v hv

theorem State.HandedOnce.step (h : s.HandedOnce c) {op : Op α} (hs : step c s op = some t) :
    t.HandedOnce c := by
  intro v hv
  cases step_case hs with
  | construct ho hf => exact h.hand hf hv
  | put hputs ho hf => exact h.hand hf hv
  | transfer | assign | destroy =>
      simp only [State.set, leave_acquired, drop_acquired]
      exact h v hv
  | self | release | swap => exact h v hv

/-! ## Careful runs -/

structure State.Accounted (c : Wrapper α) (s : State α) : Prop where
  balanced : s.Balanced c
  handedOnce : s.HandedOnce c
  lost : s.lost = []
  duplicated : ∀ v, v ≠ c.null → s.duplicated.count v = 0

theorem initial_accounted : (initial : State α).Accounted c where
  balanced _ _ := rfl
  handedOnce _ _ := Nat.zero_le 1
  lost := rfl
  duplicated _ _ := rfl

theorem drop_lost {disposes : Bool} {value : α} (h : disposes = false → value = c.null) :
    (s.drop c disposes value).lost = s.lost := by
  rw [State.drop]
  split
  · rfl
  · rename_i hne
    rw [if_pos (eq_true_of_ne_false fun hfalse => hne (h hfalse))]

theorem leave_duplicated {o : ℕ} {v value : α} (hv : v ≠ c.null)
    (h : c.copies = true → value = c.null) :
    (s.leave c o value).duplicated.count v = s.duplicated.count v := by
  rw [State.leave]
  split
  · rename_i hcopies
    rw [List.count_append, h hcopies, count_null v hv, Nat.add_zero]
  · rfl

/-- **The rule of careful runs**: a careful operation loses no handle and copies none. -/
theorem State.Accounted.step (h : s.Accounted c) {op : Op α} (hok : Careful c s op)
    (hs : step c s op = some t) : t.Accounted c := by
  refine ⟨h.balanced.step hs, h.handedOnce.step hs, ?_, ?_⟩
  · cases step_case hs with
    | construct | release | swap | self => exact h.lost
    | transfer => exact leave_lost.trans h.lost
    | @assign o rhs old value ho hval hne =>
        have hnull : c.disposes = false → old = c.null := fun hdisposes =>
          Option.some.inj (ho.symm.trans ((hok hne).2 hdisposes))
        show (State.leave c _ rhs value).lost = []
        rw [leave_lost, drop_lost hnull]
        exact h.lost
    | @put o old value hputs ho hf =>
        have hnull : old = c.null := Option.some.inj (ho.symm.trans (hok hputs))
        exact (drop_lost fun _ => hnull).trans h.lost
    | @destroy o value hval =>
        have hnull : c.frees = false → value = c.null := fun hfrees =>
          Option.some.inj (hval.symm.trans (hok hfrees))
        exact (drop_lost hnull).trans h.lost
  · intro v hv
    have hold := h.duplicated v hv
    cases step_case hs with
    | construct | release | swap | self => exact hold
    | @transfer o other value hval ho =>
        have hnull : c.copies = true → value = c.null := fun hcopies =>
          Option.some.inj (hval.symm.trans (hok hcopies))
        exact (leave_duplicated hv hnull).trans hold
    | @assign o rhs old value ho hval hne =>
        have hnull : c.copies = true → value = c.null := fun hcopies =>
          Option.some.inj (hval.symm.trans ((hok hne).1 hcopies))
        apply (leave_duplicated hv hnull).trans
        rw [drop_duplicated]
        exact hold
    | put | destroy =>
        show (State.drop c s _ _).duplicated.count v = 0
        rw [drop_duplicated]
        exact hold

/-- A handle is in one place, if it was handed out at all. -/
theorem State.Accounted.place (h : s.Accounted c) {v : α} (hv : v ≠ c.null) :
    s.held.count v + s.disposed.count v + s.released.count v = s.acquired.count v := by
  have hbalance := h.balanced v hv
  rw [h.lost, h.duplicated v hv, List.count_nil, Nat.add_zero, Nat.add_zero] at hbalance
  exact hbalance

theorem State.Accounted.unique (h : s.Accounted c) {a b : ℕ} {v : α} (hv : v ≠ c.null)
    (ha : s.objects.lookup a = some v) (hb : s.objects.lookup b = some v) : a = b := by
  by_contra hne
  have htwo := two_le_held v hne ha hb
  have hplace := h.place hv
  have honce := h.handedOnce v hv
  omega

/-- What an object holds is handed out, and not gone. -/
theorem State.Accounted.owned (h : s.Accounted c) {a : ℕ} {v : α} (hv : v ≠ c.null)
    (ha : s.objects.lookup a = some v) :
    s.acquired.count v = 1 ∧ s.disposed.count v = 0 ∧ s.released.count v = 0 := by
  have hone := one_le_held v ha
  have hplace := h.place hv
  have honce := h.handedOnce v hv
  omega

theorem State.Accounted.sound (h : s.Accounted c) : s.Sound c where
  unique _ _ _ hv ha hb := h.unique hv ha hb
  live a v hv ha := by
    obtain ⟨-, hdisposed, hreleased⟩ := h.owned hv ha
    exact ⟨List.count_eq_zero.mp hdisposed, List.count_eq_zero.mp hreleased⟩
  disposedOnce v hv := by
    have hplace := h.place hv
    have honce := h.handedOnce v hv
    omega
  complete hempty v hmem hv := by
    have hplace := h.place hv
    have hone : s.acquired.count v = 1 :=
      Nat.le_antisymm (h.handedOnce v hv) (List.count_pos_iff.mpr hmem)
    rw [State.held, hempty, hone] at hplace
    simpa using hplace

theorem accounted_of_careful (h : (system c).ReachableUnder (Careful c) s) : s.Accounted c := by
  apply h.invariant
  · rintro _ rfl
    exact initial_accounted
  · exact fun _ _ _ hs hok hstep => hs.step hok hstep

/-- **Every handle is disposed of once or released**, on careful runs. -/
theorem sound_of_careful (h : (system c).ReachableUnder (Careful c) s) : s.Sound c :=
  (accounted_of_careful h).sound

/-- A class whose operations are all careful. -/
structure Wrapper.Tidy (c : Wrapper α) : Prop where
  copies : c.copies = false
  disposes : c.disposes = true
  frees : c.frees = true
  puts : c.puts = false

omit [DecidableEq α] in
theorem Wrapper.Tidy.careful (h : c.Tidy) (s : State α) (op : Op α) : Careful c s op := by
  cases op with
  | construct | release | swap => trivial
  | transfer o other => exact fun hcopies => absurd (hcopies.symm.trans h.copies) (by decide)
  | assign o rhs =>
      refine fun _ => ⟨fun hcopies => ?_, fun hdisposes => ?_⟩
      · exact absurd (hcopies.symm.trans h.copies) (by decide)
      · exact absurd (hdisposes.symm.trans h.disposes) (by decide)
  | put o value => exact fun hputs => absurd (hputs.symm.trans h.puts) (by decide)
  | destroy o => exact fun hfrees => absurd (hfrees.symm.trans h.frees) (by decide)

/-- **A tidy class owns soundly**, whatever is done with its objects. -/
theorem Wrapper.Tidy.sound (h : c.Tidy) (hs : (system c).Reachable s) : s.Sound c := by
  apply State.Accounted.sound
  apply hs.invariant
  · rintro _ rfl
    exact initial_accounted
  · exact fun _ _ _ hi _ hstep => hi.step (h.careful _ _) hstep

/-! ## Any other run -/

/-- A handle that was forgotten, or has two owners. -/
structure State.Astray (c : Wrapper α) (s : State α) (v : α) : Prop where
  handle : v ≠ c.null
  acquired : s.acquired.count v = 1
  twice : s.lost.count v = 1 ∧ s.duplicated.count v = 0 ∨
    s.lost.count v = 0 ∧ s.duplicated.count v = 1 ∧ 2 ≤ s.held.count v

/-- An object that is destroyed leaves the other accounts as they are. -/
theorem destroy_step {o : ℕ} {value : α} (hv : s.objects.lookup o = some value) :
    ∃ t, step c s (.destroy o) = some t ∧ t.objects = s.objects.erase o ∧
      t.acquired = s.acquired ∧ t.duplicated = s.duplicated ∧ t.released = s.released ∧
      (c.frees = true → t.lost = s.lost) ∧ (c.frees = false → t.disposed = s.disposed) := by
  refine ⟨{ s.drop c c.frees value with objects := s.objects.erase o }, ?_, rfl, ?_, ?_, ?_, ?_, ?_⟩
  · rw [step, hv]
    rfl
  · exact drop_acquired c.frees
  · exact drop_duplicated c.frees
  · exact drop_released c.frees
  · intro hfrees
    exact drop_lost fun hfalse => absurd (hfrees.symm.trans hfalse) (by decide)
  · intro hfrees
    show (s.drop c c.frees value).disposed = s.disposed
    rw [State.drop, hfrees]
    split
    · rfl
    · rfl

/-- All objects can be destroyed. -/
theorem exists_clear (c : Wrapper α) (s : State α) :
    ∃ ls t, (system c).run s ls = some t ∧ t.objects = ∅ ∧
      t.acquired = s.acquired ∧ t.duplicated = s.duplicated ∧ t.released = s.released ∧
      (c.frees = true → t.lost = s.lost) ∧ (c.frees = false → t.disposed = s.disposed) := by
  induction hkeys : s.objects.keys generalizing s with
  | nil =>
      refine ⟨[], s, rfl, AList.ext ?_, rfl, rfl, rfl, fun _ => rfl, fun _ => rfl⟩
      exact List.map_eq_nil_iff.mp hkeys
  | cons o keys ih =>
      have hmem : o ∈ s.objects := AList.mem_keys.mpr (by rw [hkeys]; exact List.mem_cons_self)
      obtain ⟨value, hv⟩ := Option.isSome_iff_exists.mp (AList.lookup_isSome.mpr hmem)
      obtain ⟨r, hr, hobjects, ha, hd, hrel, hlost, hdisposed⟩ := destroy_step (c := c) hv
      have hrest : r.objects.keys = keys := by
        rw [hobjects, AList.keys_erase, hkeys, List.erase_cons_head]
      obtain ⟨ls, t, hrun, hempty, ha', hd', hrel', hlost', hdisposed'⟩ := ih r hrest
      refine ⟨.destroy o :: ls, t, ?_, hempty, ha'.trans ha, hd'.trans hd, hrel'.trans hrel, ?_, ?_⟩
      · rw [System.run_cons ls hr]
        exact hrun
      · exact fun hfrees => (hlost' hfrees).trans (hlost hfrees)
      · exact fun hfrees => (hdisposed' hfrees).trans (hdisposed hfrees)

theorem balanced_of_reachable (h : (system c).Reachable s) : s.Balanced c := by
  apply h.invariant
  · rintro _ rfl _ _
    rfl
  · exact fun _ _ _ hs _ hstep => hs.step hstep

/-- What went astray is not put right by the destructors. -/
theorem State.Astray.continued (h : (system c).Reachable s) {v : α} (hstray : s.Astray c v) :
    ∃ ls t, (system c).run s ls = some t ∧ ¬ t.Sound c := by
  obtain ⟨ls, t, hrun, hempty, ha, hd, hrel, hlost, hdisposed⟩ := exists_clear c s
  refine ⟨ls, t, hrun, fun hsound => ?_⟩
  have hone : t.acquired.count v = 1 := by
    rw [ha]
    exact hstray.acquired
  have hmem : v ∈ t.acquired := List.count_pos_iff.mp (by rw [hone]; exact Nat.one_pos)
  have hcomplete := hsound.complete hempty v hmem hstray.handle
  have hbefore := balanced_of_reachable h v hstray.handle
  have hafter := balanced_of_reachable (h.run ls hrun) v hstray.handle
  rw [hstray.acquired] at hbefore
  rw [hone, hd, State.held, hempty, AList.empty_entries, List.map_nil, List.count_nil] at hafter
  cases hfrees : c.frees with
  | true =>
      rw [hlost hfrees] at hafter
      rcases hstray.twice with ⟨_, _⟩ | ⟨_, _, _⟩ <;> omega
  | false =>
      rw [hdisposed hfrees, hrel] at hcomplete
      rcases hstray.twice with ⟨_, _⟩ | ⟨_, _, _⟩ <;> omega

/-- **A step that is not careful leads astray.** -/
theorem State.Accounted.astray (h : s.Accounted c) {op : Op α}
    (hs : Ownership.step c s op = some t) (hnot : ¬ Careful c s op) : ∃ v, t.Astray c v := by
  cases step_case hs with
  | construct | release | swap => exact absurd trivial hnot
  | self => exact absurd (fun hne => absurd rfl hne) hnot
  | @transfer o other value hval ho =>
      obtain ⟨hcopies, hne⟩ := Classical.not_imp.mp hnot
      have hv : value ≠ c.null := fun hnull => hne (hnull ▸ hval)
      have hone := (h.owned hv hval).1
      refine ⟨value, hv, ?_, Or.inr ⟨?_, ?_, ?_⟩⟩
      · exact (congrArg (List.count value) leave_acquired).trans hone
      · show (State.leave c s other value).lost.count value = 0
        rw [leave_lost, h.lost, List.count_nil]
      · show (State.leave c s other value).duplicated.count value = 1
        rw [State.leave, if_pos hcopies, List.count_append, h.duplicated value hv,
          List.count_singleton_self]
      · have hkept : (State.leave c s other value).objects.lookup other = some value := by
          rw [State.leave, if_pos hcopies]
          exact hval
        rw [count_held_set, others_of_notMem (notMem_leave hval ho), List.count_singleton_self]
        exact Nat.add_le_add_left (one_le_held value hkept) 1
  | @assign o rhs old value ho hval hne =>
      have hunsafe := fun hboth => hnot fun _ => hboth
      by_cases hkeep : c.disposes = false → s.objects.lookup o = some c.null
      · -- nothing is forgotten, so the handle on the right has two owners now
        obtain ⟨hcopies, hvalue⟩ := Classical.not_imp.mp fun hcopy => hunsafe ⟨hcopy, hkeep⟩
        have hv : value ≠ c.null := fun hnull => hvalue (hnull ▸ hval)
        have hnull : c.disposes = false → old = c.null := fun hdisposes =>
          Option.some.inj (ho.symm.trans (hkeep hdisposes))
        refine ⟨value, hv, ?_, Or.inr ⟨?_, ?_, ?_⟩⟩
        · show (State.leave c _ rhs value).acquired.count value = 1
          rw [leave_acquired, drop_acquired]
          exact (h.owned hv hval).1
        · show (State.leave c _ rhs value).lost.count value = 0
          rw [leave_lost, drop_lost hnull, h.lost, List.count_nil]
        · show (State.leave c _ rhs value).duplicated.count value = 1
          rw [State.leave, if_pos hcopies, List.count_append, drop_duplicated,
            h.duplicated value hv, List.count_singleton_self]
        · apply two_le_held value hne (AList.lookup_insert _)
          rw [State.set, AList.lookup_insert_ne (Ne.symm hne), State.leave, if_pos hcopies]
          show (s.drop c c.disposes old).objects.lookup rhs = some value
          rw [drop_objects]
          exact hval
      · obtain ⟨hdisposes, hold⟩ := Classical.not_imp.mp hkeep
        have hv : old ≠ c.null := fun hnull => hold (hnull ▸ ho)
        have hother : old ≠ value := fun heq => hne (h.unique hv ho (heq ▸ hval))
        refine ⟨old, hv, ?_, Or.inl ⟨?_, ?_⟩⟩
        · show (State.leave c _ rhs value).acquired.count old = 1
          rw [leave_acquired, drop_acquired]
          exact (h.owned hv ho).1
        · show (State.leave c _ rhs value).lost.count old = 1
          rw [leave_lost, State.drop, if_neg hv, hdisposes, if_neg Bool.false_ne_true, h.lost,
            List.nil_append, List.count_singleton_self]
        · show (State.leave c _ rhs value).duplicated.count old = 0
          have hnone : [value].count old = 0 :=
            List.count_eq_zero.mpr fun hmem => hother (List.mem_singleton.mp hmem)
          rw [State.leave]
          split
          · rw [List.count_append, drop_duplicated, h.duplicated old hv, hnone]
          · show (s.drop c c.disposes old).duplicated.count old = 0
            rw [drop_duplicated]
            exact h.duplicated old hv
  | @put o old value hputs ho hf =>
      have hv : old ≠ c.null := by
        rintro rfl
        exact hnot fun _ => ho
      have hother : old ≠ value := by
        rintro rfl
        have hmem := hf.resolve_left hv
        rw [← List.count_eq_zero, (h.owned hv ho).1] at hmem
        cases hmem
      refine ⟨old, hv, ?_, Or.inl ⟨?_, ?_⟩⟩
      · show (s.acquired ++ [value]).count old = 1
        rw [List.count_append, (h.owned hv ho).1,
          List.count_eq_zero.mpr fun hmem => hother (List.mem_singleton.mp hmem)]
      · show (State.drop c s _ _).lost.count old = 1
        rw [State.drop, if_neg hv, if_neg Bool.false_ne_true, h.lost, List.nil_append,
          List.count_singleton_self]
      · show (State.drop c s _ _).duplicated.count old = 0
        rw [drop_duplicated]
        exact h.duplicated old hv
  | @destroy o value hval =>
      obtain ⟨hfrees, hne⟩ := Classical.not_imp.mp hnot
      have hv : value ≠ c.null := fun hnull => hne (hnull ▸ hval)
      refine ⟨value, hv, ?_, Or.inl ⟨?_, ?_⟩⟩
      · show (State.drop c s _ _).acquired.count value = 1
        rw [drop_acquired]
        exact (h.owned hv hval).1
      · show (State.drop c s _ _).lost.count value = 1
        rw [State.drop, if_neg hv, hfrees, if_neg Bool.false_ne_true, h.lost, List.nil_append,
          List.count_singleton_self]
      · show (State.drop c s _ _).duplicated.count value = 0
        rw [drop_duplicated]
        exact h.duplicated value hv

/-- **No other run will do**: after an operation that is not careful, the destructors forget a
handle or dispose of it twice. -/
theorem breaks_careful (c : Wrapper α) : (system c).Breaks (Careful c) (State.Sound c) := by
  intro s op t hreach hs hnot
  obtain ⟨v, hstray⟩ := (accounted_of_careful hreach).astray hs hnot
  exact hstray.continued (.step hreach.reachable trivial hs)

end Ownership
