import Mathlib.Data.List.Forall2
import Mathlib.Data.Nat.Notation
import Mathlib.Tactic.Common

/-!
# Loops that may go wrong or run on

The body of a loop takes a state to the next state (`Sum.inl`) or to the value the
loop is left with (`Sum.inr`); it is undefined where the program goes wrong. Fuel
bounds the number of rounds, so a loop that is left within its fuel has terminated.
-/

namespace Loop

variable {σ ρ α : Type*}

/-- Repeat `body` until it leaves the loop. -/
def iterate (body : σ → Option (σ ⊕ ρ)) : ℕ → σ → Option ρ
  | 0, _ => none
  | fuel + 1, s => (body s).bind (Sum.elim (iterate body fuel) some)

variable {body : σ → Option (σ ⊕ ρ)}

theorem iterate_next {s t : σ} (fuel : ℕ) (h : body s = some (.inl t)) :
    iterate body (fuel + 1) s = iterate body fuel t := by
  simp [iterate, h]

theorem iterate_exit {s : σ} {r : ρ} (fuel : ℕ) (h : body s = some (.inr r)) :
    iterate body (fuel + 1) s = some r := by
  simp [iterate, h]

/-- More fuel does not change the value a loop is left with. -/
theorem iterate_mono {n m : ℕ} {s : σ} {r : ρ} (h : iterate body n s = some r) (hle : n ≤ m) :
    iterate body m s = some r := by
  induction n generalizing s m with
  | zero => cases h
  | succ n ih =>
      obtain ⟨k, rfl⟩ : ∃ k, m = k + 1 := ⟨m - 1, by omega⟩
      obtain ⟨x, hx, hrest⟩ := Option.bind_eq_some_iff.mp h
      rcases x with t | q
      · rw [iterate_next k hx]
        exact ih hrest (by omega)
      · rw [iterate_exit k hx]
        exact hrest

/-- **The loop rule**, for total correctness: from every state that meets the
invariant at some rank the body either leaves the loop with the postcondition, or
reaches a state that meets it at a smaller rank. -/
theorem iterate_ranked {I : ℕ → σ → Prop} {Q : ρ → Prop}
    (hbody : ∀ n s, I n s → ∃ x, body s = some x ∧
      Sum.elim (fun t => ∃ m, m < n ∧ I m t) Q x)
    {n fuel : ℕ} {s : σ} (hs : I n s) (hfuel : n < fuel) :
    ∃ r, iterate body fuel s = some r ∧ Q r := by
  induction fuel generalizing n s with
  | zero => omega
  | succ fuel ih =>
      obtain ⟨x, hx, hpost⟩ := hbody n s hs
      rcases x with t | r
      · obtain ⟨m, hm, ht⟩ := hpost
        rw [iterate_next fuel hx]
        exact ih ht (by omega)
      · exact ⟨r, iterate_exit fuel hx, hpost⟩

/-- The loop rule with a variant: the rank is a function of the state. -/
theorem iterate_total {I : σ → Prop} {Q : ρ → Prop} (variant : σ → ℕ)
    (hbody : ∀ s, I s → ∃ x, body s = some x ∧
      Sum.elim (fun t => I t ∧ variant t < variant s) Q x)
    {fuel : ℕ} {s : σ} (hs : I s) (hfuel : variant s < fuel) :
    ∃ r, iterate body fuel s = some r ∧ Q r := by
  refine iterate_ranked (I := fun n s => I s ∧ variant s = n) ?_ ⟨hs, rfl⟩ hfuel
  rintro n s ⟨hs, rfl⟩
  obtain ⟨x, hx, hpost⟩ := hbody s hs
  refine ⟨x, hx, ?_⟩
  rcases x with t | r
  · exact ⟨variant t, hpost.2, hpost.1, rfl⟩
  · exact hpost

/-- **The rule for a loop over a list**: the invariant speaks of the items done so far. -/
theorem foldlM_total {f : σ → α → Option σ} (I : List α → σ → Prop) {l : List α}
    (hstep : ∀ done a todo s, l = done ++ a :: todo → I done s →
      ∃ t, f s a = some t ∧ I (done ++ [a]) t)
    {s : σ} (hs : I [] s) : ∃ t, l.foldlM f s = some t ∧ I l t := by
  suffices h : ∀ todo done s, l = done ++ todo → I done s →
      ∃ t, todo.foldlM f s = some t ∧ I l t from h l [] s rfl hs
  intro todo
  induction todo with
  | nil =>
      intro done s hl hs
      rw [List.append_nil] at hl
      exact ⟨s, rfl, hl ▸ hs⟩
  | cons a todo ih =>
      intro done s hl hs
      obtain ⟨t, ht, hI⟩ := hstep done a todo s hl hs
      obtain ⟨u, hu, hI⟩ := ih (done ++ [a]) t (by rw [hl, List.append_cons]) hI
      exact ⟨u, by rw [List.foldlM_cons, ht]; exact hu, hI⟩

/-- **The rules for a loop that collects one result for each item**: what a loop that returns has
collected, and that it returns where the body is defined for every item. -/
theorem mapM_forall₂ {f : σ → Option ρ} {l : List σ} {r : List ρ} (h : l.mapM f = some r) :
    List.Forall₂ (fun a b => f a = some b) l r := by
  induction l generalizing r with
  | nil =>
      cases h
      exact .nil
  | cons a l ih =>
      rw [List.mapM_cons] at h
      obtain ⟨b, hb, hrest⟩ := Option.bind_eq_some_iff.mp h
      obtain ⟨bs, hbs, hr⟩ := Option.bind_eq_some_iff.mp hrest
      cases hr
      exact .cons hb (ih hbs)

theorem mapM_total {f : σ → Option ρ} {l : List σ} (h : ∀ a ∈ l, ∃ b, f a = some b) :
    ∃ r, l.mapM f = some r := by
  induction l with
  | nil => exact ⟨[], rfl⟩
  | cons a l ih =>
      obtain ⟨b, hb⟩ := h a List.mem_cons_self
      obtain ⟨bs, hbs⟩ := ih fun c hc => h c (List.mem_cons_of_mem a hc)
      refine ⟨b :: bs, ?_⟩
      rw [List.mapM_cons, hb]
      show (l.mapM f).bind _ = _
      rw [hbs]
      rfl

/-- A loop over an index range collects what one round of it does, where the others find
nothing. -/
theorem flatMap_range_eq {n i : ℕ} (hi : i < n) {f : ℕ → List α}
    (hrest : ∀ j, j ≠ i → f j = []) : (List.range n).flatMap f = f i := by
  induction n with
  | zero => exact absurd hi (Nat.not_lt_zero i)
  | succ n ih =>
      rw [List.range_succ, List.flatMap_append, List.flatMap_singleton]
      rcases Nat.lt_succ_iff_lt_or_eq.mp hi with hlt | rfl
      · rw [ih hlt, hrest n (Nat.ne_of_gt hlt), List.append_nil]
      · have hbefore : (List.range i).flatMap f = [] := by
          rw [List.flatMap_eq_nil_iff]
          intro j hj
          exact hrest j (Nat.ne_of_lt (List.mem_range.mp hj))
        rw [hbefore, List.nil_append]

end Loop
