import Coroutines.Lib.Transition
import Mathlib.Data.List.Nodup
import Mathlib.Logic.Equiv.Basic

/-!
# Unique handles

`libcoro/win/unique_handle.hpp`, for any traits: a pointer type that can be compared, and its
invalid value. Objects are created and destroyed at addresses in any order. A handle that is
handed to an object was never used before; from then on it is owned by one object, or was
closed once, or was released.
-/

namespace Coroutines.UniqueHandle

open Transition Function

variable {α : Type}

/-! ## The model -/

structure State (α : Type) where
  /-- `m_value` of the object at an address, if one lives there. -/
  objects : ℕ → Option α
  /-- History: the values handed to an object, the calls of `Traits::close`, and the values
  that `release` returned. -/
  used : List α
  closed : List α
  released : List α

def initial : State α where
  objects := fun _ => none
  used := []
  closed := []
  released := []

namespace State

variable (invalid : α) (s : State α)

/-- `m_value = value`. -/
def set (o : ℕ) (value : α) : State α := { s with objects := update s.objects o (some value) }

/-- A value comes from outside. -/
def hand (value : α) : State α := { s with used := s.used ++ [value] }

/-- Never used before, or the invalid value. -/
def Fresh (value : α) : Prop := value = invalid ∨ value ∉ s.used

variable [DecidableEq α]

instance (value : α) : Decidable (s.Fresh invalid value) := inferInstanceAs (Decidable (_ ∨ _))

/-- `unique_handle::close` of an object that holds `value`. -/
def close (value : α) : State α :=
  if value ≠ invalid then { s with closed := s.closed ++ [value] } else s

/-- `unique_handle::reset`. -/
def reset (o : ℕ) (value : α) : Option (State α) := do
  let m ← s.objects o
  if m ≠ value then some ((s.close invalid m).set o value) else some s

end State

inductive Op (α : Type)
  | construct (o : ℕ) (value : α)
  | moveConstruct (o other : ℕ)
  | moveAssign (o rhs : ℕ)
  | release (o : ℕ)
  | reset (o : ℕ) (value : α)
  /-- `*o.put() = value`. -/
  | put (o : ℕ) (value : α)
  | swap (o other : ℕ)
  | destroy (o : ℕ)

def step [DecidableEq α] (invalid : α) (s : State α) : Op α → Option (State α)
  | .construct o value =>
      if s.objects o = none ∧ s.Fresh invalid value then some ((s.hand value).set o value)
      else none
  | .moveConstruct o other => do
      let value ← s.objects other
      if s.objects o = none then some ((s.set other invalid).set o value) else none
  | .moveAssign o rhs => do
      let value ← s.objects rhs
      (s.set rhs invalid).reset invalid o value
  | .release o => do
      let value ← s.objects o
      some { s.set o invalid with released := s.released ++ [value] }
  | .reset o value => if s.Fresh invalid value then (s.hand value).reset invalid o value else none
  | .put o value => do
      let m ← s.objects o
      if s.Fresh invalid value then
        some ((((s.close invalid m).set o invalid).hand value).set o value)
      else none
  | .swap o other => do
      let value ← s.objects o
      let value' ← s.objects other
      some ((s.set o value').set other value)
  | .destroy o => do
      let m ← s.objects o
      let s := s.close invalid m
      some { s with objects := update s.objects o none }

def system [DecidableEq α] (invalid : α) : System (State α) (Op α) where
  Init s := s = initial
  step := step invalid

/-- What the wrappers promise: one owner, one call of `close`, and none for what was released;
nothing is forgotten once all objects are gone. -/
structure State.Sound [DecidableEq α] (invalid : α) (s : State α) : Prop where
  unique : ∀ o o' h, h ≠ invalid → s.objects o = some h → s.objects o' = some h → o = o'
  closedOnce : ∀ h, s.closed.count h ≤ 1
  released : ∀ h ∈ s.released, h ∉ s.closed
  complete : (∀ o, s.objects o = none) → ∀ h ∈ s.used, h ≠ invalid → h ∉ s.released →
    s.closed.count h = 1

/-! ## Where a handle is -/

section
variable {invalid : α} {s : State α}

/-- There is no object, or it has no handle. -/
def Vacant (invalid : α) (x : Option α) : Prop := ∀ v, x = some v → v = invalid

theorem vacant_none : Vacant invalid none := by
  rintro v ⟨⟩

theorem vacant_invalid : Vacant invalid (some invalid) := by
  rintro v ⟨⟩
  rfl

theorem owner_of_update {o a : ℕ} {x : Option α} {v : α} (hx : Vacant invalid x)
    (hv : v ≠ invalid) (h : update s.objects o x a = some v) : a ≠ o ∧ s.objects a = some v := by
  have hne : a ≠ o := by
    rintro rfl
    rw [update_self] at h
    exact hv (hx v h)
  rw [update_of_ne hne] at h
  exact ⟨hne, h⟩

theorem owner_stays {o a : ℕ} {x : Option α} {v : α} (hne : a ≠ o) (h : s.objects a = some v) :
    ∃ b, update s.objects o x b = some v := by
  refine ⟨a, ?_⟩
  rw [update_of_ne hne]
  exact h

@[simp] theorem set_objects (o : ℕ) (value : α) :
    (s.set o value).objects = update s.objects o (some value) := rfl

theorem set_self {o : ℕ} {value : α} (h : s.objects o = some value) : s.set o value = s := by
  rw [State.set, ← h, update_eq_self]

theorem set_again {o other : ℕ} (hne : o ≠ other) (u v w : α) :
    ((s.set o u).set other v).set o w = (s.set other v).set o w := by
  simp only [State.set]
  rw [update_comm hne, update_idem]

theorem vacant_set (o : ℕ) : Vacant invalid ((s.set o invalid).objects o) := by
  rw [set_objects, update_self]
  exact vacant_invalid

end

variable [DecidableEq α]

/-- The handles that no object owns any more. -/
def State.gone (invalid : α) (s : State α) : List α :=
  s.closed ++ s.released.filter (· ≠ invalid)

/-- Every handle that was used is owned by one object, or is gone, and nothing goes twice. -/
structure State.Accounted (invalid : α) (s : State α) : Prop where
  unique : ∀ a b v, v ≠ invalid → s.objects a = some v → s.objects b = some v → a = b
  owned : ∀ a v, v ≠ invalid → s.objects a = some v → v ∈ s.used ∧ v ∉ s.gone invalid
  found : ∀ v ∈ s.used, v ≠ invalid → (∃ a, s.objects a = some v) ∨ v ∈ s.gone invalid
  nodup : (s.gone invalid).Nodup
  gone : ∀ v ∈ s.gone invalid, v ≠ invalid ∧ v ∈ s.used

section
variable {invalid : α} {s s' : State α}

/-- Handles may change places. -/
theorem State.Accounted.permute (h : s.Accounted invalid) (σ : Equiv.Perm ℕ) :
    State.Accounted invalid { s with objects := s.objects ∘ σ } where
  unique a b v hv ha hb := σ.injective (h.unique _ _ v hv ha hb)
  owned a v hv ha := h.owned _ v hv ha
  found v hmem hv := by
    rcases h.found v hmem hv with ⟨a, ha⟩ | hgone
    · refine Or.inl ⟨σ.symm a, ?_⟩
      show s.objects (σ (σ.symm a)) = some v
      rw [σ.apply_symm_apply]
      exact ha
    · exact Or.inr hgone
  nodup := h.nodup
  gone := h.gone

theorem State.Accounted.unique_of_update (h : s.Accounted invalid) {o : ℕ} {x : Option α}
    (hx : Vacant invalid x) (hobjects : s'.objects = update s.objects o x) :
    ∀ a b v, v ≠ invalid → s'.objects a = some v → s'.objects b = some v → a = b := by
  intro a b v hv ha hb
  rw [hobjects] at ha hb
  exact h.unique a b v hv (owner_of_update hx hv ha).2 (owner_of_update hx hv hb).2

/-- An object without a handle comes or goes. -/
theorem State.Accounted.vacate (h : s.Accounted invalid) {o : ℕ} {x : Option α}
    (ho : Vacant invalid (s.objects o)) (hx : Vacant invalid x)
    (hobjects : s'.objects = update s.objects o x) (hused : s'.used = s.used)
    (hgone : s'.gone invalid = s.gone invalid) : s'.Accounted invalid := by
  constructor
  case unique => exact h.unique_of_update hx hobjects
  case owned =>
    intro a v hv ha
    rw [hobjects] at ha
    rw [hused, hgone]
    exact h.owned a v hv (owner_of_update hx hv ha).2
  case found =>
    intro v hmem hv
    rw [hused] at hmem
    rw [hobjects, hgone]
    rcases h.found v hmem hv with ⟨a, ha⟩ | hold
    · refine Or.inl (owner_stays ?_ ha)
      rintro rfl
      exact hv (ho v ha)
    · exact Or.inr hold
  case nodup =>
    rw [hgone]
    exact h.nodup
  case gone =>
    rw [hgone, hused]
    exact h.gone

/-- An object loses its handle, which is gone then. -/
theorem State.Accounted.lose (h : s.Accounted invalid) {o : ℕ} {m : α} {x : Option α}
    (ho : s.objects o = some m) (hm : m ≠ invalid) (hx : Vacant invalid x)
    (hobjects : s'.objects = update s.objects o x) (hused : s'.used = s.used)
    (hgone : (s'.gone invalid).Perm (m :: s.gone invalid)) : s'.Accounted invalid := by
  obtain ⟨hmused, hmkept⟩ := h.owned o m hm ho
  constructor
  case unique => exact h.unique_of_update hx hobjects
  case owned =>
    intro a v hv ha
    rw [hobjects] at ha
    obtain ⟨hne, ha⟩ := owner_of_update hx hv ha
    obtain ⟨hmem, hkept⟩ := h.owned a v hv ha
    rw [hused, hgone.mem_iff]
    refine ⟨hmem, fun hcons => ?_⟩
    rcases List.mem_cons.mp hcons with rfl | hold
    · exact hne (h.unique a o v hv ha ho)
    · exact hkept hold
  case found =>
    intro v hmem hv
    rw [hused] at hmem
    rw [hobjects, hgone.mem_iff]
    rcases h.found v hmem hv with ⟨a, ha⟩ | hold
    · by_cases hao : a = o
      · rw [hao, ho] at ha
        rw [Option.some.inj ha]
        exact Or.inr List.mem_cons_self
      · exact Or.inl (owner_stays hao ha)
    · exact Or.inr (List.mem_cons_of_mem _ hold)
  case nodup =>
    rw [hgone.nodup_iff]
    exact List.nodup_cons.mpr ⟨hmkept, h.nodup⟩
  case gone =>
    intro v hv
    rw [hused]
    rcases List.mem_cons.mp (hgone.mem_iff.mp hv) with rfl | hold
    · exact ⟨hm, hmused⟩
    · exact h.gone v hold

/-- An empty object takes a fresh handle, or stays empty. -/
theorem State.Accounted.adopt (h : s.Accounted invalid) {o : ℕ} {value : α}
    (ho : Vacant invalid (s.objects o)) (hf : s.Fresh invalid value) :
    State.Accounted invalid ((s.hand value).set o value) := by
  have hnew : value ≠ invalid → value ∉ s.used := fun hne => hf.resolve_left hne
  have hcases : ∀ a v, update s.objects o (some value) a = some v →
      a = o ∧ value = v ∨ s.objects a = some v := by
    intro a v ha
    by_cases hao : a = o
    · rw [hao, update_self] at ha
      exact Or.inl ⟨hao, Option.some.inj ha⟩
    · rw [update_of_ne hao] at ha
      exact Or.inr ha
  constructor
  case unique =>
    intro a b v hv ha hb
    rcases hcases a v ha with ⟨rfl, rfl⟩ | ha'
    · rcases hcases b value hb with ⟨rfl, -⟩ | hb'
      · rfl
      · exact absurd (h.owned b value hv hb').1 (hnew hv)
    · rcases hcases b v hb with ⟨rfl, rfl⟩ | hb'
      · exact absurd (h.owned a value hv ha').1 (hnew hv)
      · exact h.unique a b v hv ha' hb'
  case owned =>
    intro a v hv ha
    rcases hcases a v ha with ⟨rfl, rfl⟩ | ha'
    · refine ⟨List.mem_append_right _ (List.mem_singleton_self value), fun hgone => ?_⟩
      exact hnew hv (h.gone value hgone).2
    · have hold := h.owned a v hv ha'
      exact ⟨List.mem_append_left _ hold.1, hold.2⟩
  case found =>
    intro v hmem hv
    rcases List.mem_append.mp hmem with hmem | hmem
    · rcases h.found v hmem hv with ⟨a, ha⟩ | hgone
      · refine Or.inl (owner_stays ?_ ha)
        rintro rfl
        exact hv (ho v ha)
      · exact Or.inr hgone
    · refine Or.inl ⟨o, ?_⟩
      rw [List.mem_singleton.mp hmem]
      exact update_self o (some value) s.objects
  case nodup => exact h.nodup
  case gone =>
    intro v hv
    have hold := h.gone v hv
    exact ⟨hold.1, List.mem_append_left _ hold.2⟩

/-! ## Every operation -/

theorem State.Accounted.close (h : s.Accounted invalid) {o : ℕ} {m : α} {x : Option α}
    (ho : s.objects o = some m) (hx : Vacant invalid x) :
    State.Accounted invalid { s.close invalid m with objects := update s.objects o x } := by
  by_cases hm : m = invalid
  · rw [State.close, if_neg (not_not.mpr hm)]
    refine h.vacate ?_ hx rfl rfl rfl
    rw [ho, hm]
    exact vacant_invalid
  · rw [State.close, if_pos hm]
    refine h.lose ho hm hx rfl rfl ?_
    show (s.closed ++ [m] ++ _).Perm (m :: (s.closed ++ _))
    rw [List.append_assoc]
    exact List.perm_middle

theorem State.Accounted.release (h : s.Accounted invalid) {o : ℕ} {value : α}
    (ho : s.objects o = some value) :
    State.Accounted invalid { s.set o invalid with released := s.released ++ [value] } := by
  by_cases hv : value = invalid
  · refine h.vacate (o := o) ?_ vacant_invalid rfl rfl ?_
    · rw [ho, hv]
      exact vacant_invalid
    · simp [State.gone, State.set, hv]
  · refine h.lose ho hv vacant_invalid rfl rfl ?_
    have hfilter : (s.released ++ [value]).filter (· ≠ invalid) =
        s.released.filter (· ≠ invalid) ++ [value] := by
      simp [hv]
    show (s.closed ++ (s.released ++ [value]).filter (· ≠ invalid)).Perm _
    rw [hfilter, ← List.append_assoc]
    exact List.perm_append_comm

@[simp] theorem close_objects (m : α) : (s.close invalid m).objects = s.objects := by
  rw [State.close]
  split
  · rfl
  · rfl

@[simp] theorem close_used (m : α) : (s.close invalid m).used = s.used := by
  rw [State.close]
  split
  · rfl
  · rfl

theorem close_hand (m value : α) :
    (s.hand value).close invalid m = (s.close invalid m).hand value := by
  rw [State.close, State.close]
  split
  · rfl
  · rfl

theorem close_set (m value : α) (o : ℕ) :
    (s.set o value).close invalid m = (s.close invalid m).set o value := by
  rw [State.close, State.close]
  split
  · rfl
  · rfl

/-- An object closes its handle and is empty. -/
theorem State.Accounted.closeAndClear (h : s.Accounted invalid) {o : ℕ} {m : α}
    (ho : s.objects o = some m) : State.Accounted invalid ((s.close invalid m).set o invalid) := by
  have hclosed := h.close ho vacant_invalid
  rw [State.set, close_objects]
  exact hclosed

/-- An object closes its handle and takes a fresh one. -/
theorem State.Accounted.replace (h : s.Accounted invalid) {o : ℕ} {m value : α}
    (ho : s.objects o = some m) (hf : s.Fresh invalid value) :
    State.Accounted invalid (((s.close invalid m).hand value).set o value) := by
  have hfresh : ((s.close invalid m).set o invalid).Fresh invalid value := by
    show value = invalid ∨ value ∉ (s.close invalid m).used
    rw [close_used]
    exact hf
  have hadopt := (h.closeAndClear ho).adopt (vacant_set o) hfresh
  simp only [State.set, State.hand, update_idem] at hadopt ⊢
  exact hadopt

theorem State.Accounted.reset (h : s.Accounted invalid) {o : ℕ} {value : α}
    (hf : s.Fresh invalid value) (hstep : (s.hand value).reset invalid o value = some s') :
    s'.Accounted invalid := by
  obtain ⟨m, ho, hrest⟩ := Option.bind_eq_some_iff.mp hstep
  by_cases hm : m = value
  · -- a fresh handle is not the one it has, so the object is empty and stays so
    rw [if_neg (not_not.mpr hm)] at hrest
    rw [hm] at ho
    have hvacant : Vacant invalid (s.objects o) := by
      intro v hv
      by_contra hne
      obtain rfl : value = v := Option.some.inj (ho.symm.trans hv)
      exact hf.resolve_left hne (h.owned o value hne hv).1
    rw [← Option.some.inj hrest, ← set_self ho]
    exact h.adopt hvacant hf
  · rw [if_pos hm] at hrest
    rw [← Option.some.inj hrest, close_hand]
    exact h.replace ho hf

/-- An empty object takes over the handle of another one. -/
theorem State.Accounted.take (h : s.Accounted invalid) {o other : ℕ} {value : α}
    (hne : o ≠ other) (ho : Vacant invalid (s.objects o)) (hv : s.objects other = some value) :
    State.Accounted invalid ((s.set other invalid).set o value) := by
  have hcleared : State.Accounted invalid (s.set o invalid) :=
    h.vacate ho vacant_invalid rfl rfl rfl
  have hswapped := hcleared.permute (Equiv.swap o other)
  have hself : (s.set o invalid).objects o = some invalid := update_self ..
  have hother : (s.set o invalid).objects other = some value := by
    rw [set_objects, update_of_ne hne.symm]
    exact hv
  rw [Equiv.comp_swap_eq_update, hself, hother] at hswapped
  rw [← set_again hne invalid invalid value]
  exact hswapped

theorem State.Accounted.moveAssign (h : s.Accounted invalid) {o rhs : ℕ} {value : α}
    (hv : s.objects rhs = some value)
    (hstep : (s.set rhs invalid).reset invalid o value = some s') : s'.Accounted invalid := by
  obtain ⟨m, ho, hrest⟩ := Option.bind_eq_some_iff.mp hstep
  by_cases hself : o = rhs
  · -- what was released is stored again
    subst hself
    have hback : (s.set o invalid).set o value = s := by
      simp only [State.set, update_idem]
      exact set_self hv
    obtain rfl : invalid = m := by
      rw [set_objects, update_self] at ho
      exact Option.some.inj ho
    have hs' : s' = s := by
      by_cases hm : invalid = value
      · rw [if_neg (not_not.mpr hm), hm, set_self hv] at hrest
        exact (Option.some.inj hrest).symm
      · rw [if_pos hm, State.close, if_neg (not_not.mpr rfl), hback] at hrest
        exact (Option.some.inj hrest).symm
    rw [hs']
    exact h
  · rw [set_objects, update_of_ne hself] at ho
    by_cases hm : m = value
    · -- two objects have one value: neither has a handle
      subst hm
      obtain rfl : m = invalid := by
        by_contra hne
        exact hself (h.unique o rhs m hne ho hv)
      rw [if_neg (not_not.mpr rfl), set_self hv] at hrest
      rw [← Option.some.inj hrest]
      exact h
    · rw [if_pos hm, close_set] at hrest
      have hrhs : ((s.close invalid m).set o invalid).objects rhs = some value := by
        rw [set_objects, update_of_ne (Ne.symm hself), close_objects]
        exact hv
      have htaken := (h.closeAndClear ho).take hself (vacant_set o) hrhs
      rw [set_again hself] at htaken
      rw [← Option.some.inj hrest]
      exact htaken

theorem State.Accounted.step (h : s.Accounted invalid) {op : Op α}
    (hstep : step invalid s op = some s') : s'.Accounted invalid := by
  cases op with
  | construct o value =>
      obtain ⟨⟨hnone, hf⟩, heq⟩ := Option.ite_none_right_eq_some.mp hstep
      rw [← Option.some.inj heq]
      refine h.adopt ?_ hf
      rw [hnone]
      exact vacant_none
  | moveConstruct o other =>
      obtain ⟨value, hv, hrest⟩ := Option.bind_eq_some_iff.mp hstep
      obtain ⟨hnone, heq⟩ := Option.ite_none_right_eq_some.mp hrest
      have hne : o ≠ other := by
        rintro rfl
        rw [hnone] at hv
        cases hv
      rw [← Option.some.inj heq]
      refine h.take hne ?_ hv
      rw [hnone]
      exact vacant_none
  | moveAssign o rhs =>
      obtain ⟨value, hv, hrest⟩ := Option.bind_eq_some_iff.mp hstep
      exact h.moveAssign hv hrest
  | release o =>
      obtain ⟨value, hv, heq⟩ := Option.bind_eq_some_iff.mp hstep
      rw [← Option.some.inj heq]
      exact h.release hv
  | reset o value =>
      obtain ⟨hf, hrest⟩ := Option.ite_none_right_eq_some.mp hstep
      exact h.reset hf hrest
  | put o value =>
      obtain ⟨m, ho, hrest⟩ := Option.bind_eq_some_iff.mp hstep
      obtain ⟨hf, heq⟩ := Option.ite_none_right_eq_some.mp hrest
      have hreplaced := h.replace ho hf
      rw [← Option.some.inj heq]
      simp only [State.set, State.hand, update_idem] at hreplaced ⊢
      exact hreplaced
  | swap o other =>
      obtain ⟨value, hv, hrest⟩ := Option.bind_eq_some_iff.mp hstep
      obtain ⟨value', hv', heq⟩ := Option.bind_eq_some_iff.mp hrest
      have hswapped := h.permute (Equiv.swap other o)
      rw [Equiv.comp_swap_eq_update, hv, hv'] at hswapped
      rw [← Option.some.inj heq]
      exact hswapped
  | destroy o =>
      obtain ⟨m, ho, heq⟩ := Option.bind_eq_some_iff.mp hstep
      rw [← Option.some.inj heq]
      have hclosed := h.close ho vacant_none
      simp only [close_objects]
      exact hclosed

theorem State.Accounted.sound (h : s.Accounted invalid) : s.Sound invalid := by
  obtain ⟨hclosed, -, hdisjoint⟩ := List.nodup_append.mp h.nodup
  constructor
  case unique => exact fun a b v hv ha hb => h.unique a b v hv ha hb
  case closedOnce => exact fun v => List.nodup_iff_count_le_one.mp hclosed v
  case released =>
    intro v hv hmem
    have hne := (h.gone v (List.mem_append_left _ hmem)).1
    exact hdisjoint v hmem v (List.mem_filter.mpr ⟨hv, decide_eq_true hne⟩) rfl
  case complete =>
    intro hempty v hused hv hkept
    rcases h.found v hused hv with ⟨a, ha⟩ | hgone
    · rw [hempty a] at ha
      cases ha
    rcases List.mem_append.mp hgone with hmem | hmem
    · exact List.count_eq_one_of_mem hclosed hmem
    · exact absurd (List.mem_filter.mp hmem).1 hkept

end

/-- **Every handle is closed once**, or released and never closed, after any operations on any
objects, for any traits. -/
theorem sound_of_reachable (invalid : α) (s : State α) (h : (system invalid).Reachable s) :
    s.Sound invalid := by
  refine State.Accounted.sound (h.invariant ?_ fun _ _ _ hs _ hstep => hs.step hstep)
  rintro _ rfl
  constructor
  case unique => exact fun _ _ _ _ ha => nomatch ha
  case owned => exact fun _ _ _ ha => nomatch ha
  case found => exact fun _ hmem => nomatch hmem
  case nodup => exact List.nodup_nil
  case gone => exact fun _ hmem => nomatch hmem

/-- Three objects and three handles, where zero is invalid. -/
def errands : List (Op ℕ) :=
  [.construct 0 7, .construct 1 0, .moveAssign 1 0, .moveAssign 1 1, .put 0 8, .swap 0 1,
    .moveConstruct 2 0, .reset 1 9, .release 1, .destroy 2, .destroy 0, .destroy 1]

theorem errands_sound :
    ∃ s, (system 0).run initial errands = some s ∧ s.closed = [8, 7] ∧ s.released = [9] ∧
      s.Sound 0 :=
  ⟨_, rfl, rfl, rfl, sound_of_reachable 0 _ (System.Reachable.run (.init rfl) errands rfl)⟩

end Coroutines.UniqueHandle
