import Coroutines.BinarySearch.StateMachine

/-!
# Searching a sorted dataset

In a dataset in non-decreasing order the half of the window that a probe drops cannot hold the
key, so the plain search and the one by state machine both answer whether the key occurs. A read
outside of the dataset is undefined, so a search that answers has probed inside of it.
-/

namespace Coroutines.BinarySearch

open Loop

/-- In non-decreasing order, duplicates included. -/
abbrev Sorted (dataset : List ℤ) : Prop := dataset.Pairwise (· ≤ ·)

theorem Sorted.le {dataset : List ℤ} (h : Sorted dataset) {i j : ℕ} {x y : ℤ} (hij : i ≤ j)
    (hx : dataset[i]? = some x) (hy : dataset[j]? = some y) : x ≤ y := by
  obtain ⟨hi, rfl⟩ := List.getElem?_eq_some_iff.mp hx
  obtain ⟨hj, rfl⟩ := List.getElem?_eq_some_iff.mp hy
  rcases hij.lt_or_eq with hlt | rfl
  · exact List.pairwise_iff_getElem.mp h i j hi hj hlt
  · exact le_refl _

/-! ## The window -/

/-- The window holds the value. -/
def Cursor.Covers (dataset : List ℤ) (val : ℤ) (c : Cursor) : Prop :=
  ∃ i, c.first ≤ i ∧ i < c.first + c.len ∧ dataset[i]? = some val

theorem Cursor.covers_all {dataset : List ℤ} {val : ℤ} :
    Cursor.Covers dataset val { first := 0, len := dataset.length } ↔ val ∈ dataset := by
  constructor
  · rintro ⟨i, -, -, hi⟩
    exact List.mem_of_getElem? hi
  · intro hmem
    obtain ⟨i, hi⟩ := List.getElem?_of_mem hmem
    refine ⟨i, Nat.zero_le i, ?_, hi⟩
    rw [Nat.zero_add]
    exact (List.getElem?_eq_some_iff.mp hi).1

theorem Cursor.not_covers_empty {dataset : List ℤ} {val : ℤ} {c : Cursor} (hlen : c.len = 0) :
    ¬ c.Covers dataset val := by
  rintro ⟨i, hlow, hhigh, -⟩
  omega

/-- **A probe that misses drops no occurrence.** -/
theorem Cursor.covers_narrow {dataset : List ℤ} {val x : ℤ} {c : Cursor}
    (hsorted : Sorted dataset) (hlen : 0 < c.len) (hx : dataset[c.first + c.len / 2]? = some x)
    (hne : x ≠ val) : (c.narrow x val).Covers dataset val ↔ c.Covers dataset val := by
  unfold Cursor.narrow Cursor.Covers
  by_cases hless : x < val
  · rw [if_pos hless]
    dsimp only
    constructor
    · rintro ⟨i, hlow, hhigh, hi⟩
      exact ⟨i, by omega, by omega, hi⟩
    · rintro ⟨i, hlow, hhigh, hi⟩
      -- up to the middle everything is at most `x`
      have hright : c.first + c.len / 2 < i := by
        by_contra hleft
        have hle := hsorted.le (Nat.le_of_not_lt hleft) hi hx
        omega
      exact ⟨i, hright, by omega, hi⟩
  · rw [if_neg hless]
    dsimp only
    constructor
    · rintro ⟨i, hlow, hhigh, hi⟩
      exact ⟨i, hlow, by omega, hi⟩
    · rintro ⟨i, hlow, hhigh, hi⟩
      -- from the middle on everything is at least `x`
      have hleft : i < c.first + c.len / 2 := by
        by_contra hright
        have hle := hsorted.le (Nat.le_of_not_lt hright) hx hi
        omega
      exact ⟨i, hlow, hleft, hi⟩

/-- **The search of a window** answers whether the window holds the value. -/
theorem verdict_iff_covers {dataset : List ℤ} (hsorted : Sorted dataset) (val : ℤ) {c : Cursor}
    (h : c.Within dataset) : verdict dataset val c = true ↔ c.Covers dataset val := by
  induction hn : c.len using Nat.strong_induction_on generalizing c with
  | h n ih =>
    subst hn
    rcases Nat.eq_zero_or_pos c.len with hlen | hlen
    · rw [verdict_empty val hlen]
      exact iff_of_false Bool.false_ne_true (Cursor.not_covers_empty hlen)
    · obtain ⟨x, hx⟩ := h.probe hlen
      by_cases heq : x = val
      · subst heq
        refine iff_of_true (verdict_hit hlen hx) ⟨_, Nat.le_add_right _ _, ?_, hx⟩
        exact Nat.add_lt_add_left (Nat.div_lt_self hlen Nat.one_lt_two) _
      · rw [verdict_narrow h hlen hx heq, ← Cursor.covers_narrow hsorted hlen hx heq]
        exact ih _ (Cursor.narrow_len hlen x val) (h.narrow hlen x val) rfl

theorem verdict_sorted {dataset : List ℤ} (hsorted : Sorted dataset) (val : ℤ) :
    verdict dataset val { first := 0, len := dataset.length } = decide (val ∈ dataset) := by
  have hwithin : Cursor.Within dataset { first := 0, len := dataset.length } :=
    Nat.le_of_eq (Nat.zero_add _)
  rw [Bool.eq_iff_iff, decide_eq_true_iff, verdict_iff_covers hsorted val hwithin,
    Cursor.covers_all]

/-! ## One frame, run to its end -/

/-- What the frame has found and what it still owes add up to the answer of the plain search. -/
def Frame.Answers (dataset : List ℤ) (answer : Bool) (f : Frame) : Prop :=
  f.Sound dataset ∧ f.owes dataset + (if f.state = .found then 1 else 0) = answer.toNat

theorem Frame.Answers.run {dataset : List ℤ} {answer : Bool} {f : Frame}
    (h : f.Answers dataset answer) (hst : f.state = .keepGoing) :
    ∃ done f', f.run dataset = some (done, f') ∧ f'.Answers dataset answer ∧
      f'.work < f.work := by
  obtain ⟨hsound, hanswer⟩ := h
  obtain ⟨done, f', hrun, hran⟩ := Frame.run_spec hsound hst
  refine ⟨done, f', hrun, ⟨hran.sound, ?_⟩, hran.work⟩
  rw [hran.owes, ← hanswer, hst]
  rfl

/-- A frame that is over says what it has found. -/
theorem Frame.Answers.over {dataset : List ℤ} {answer : Bool} {f : Frame}
    (h : f.Answers dataset answer) (hst : f.state ≠ .keepGoing) :
    decide (f.state = .found) = answer := by
  have hanswer := h.2
  rw [Frame.owes_of_not hst, Nat.zero_add] at hanswer
  by_cases hfound : f.state = .found
  · rw [if_pos hfound] at hanswer
    rw [decide_eq_true hfound]
    exact (Bool.toNat_eq_one.mp hanswer.symm).symm
  · rw [if_neg hfound] at hanswer
    rw [decide_eq_false hfound]
    exact (Bool.toNat_eq_zero.mp hanswer.symm).symm

theorem Frame.init_answers (dataset : List ℤ) (key : ℤ) :
    (Frame.init {} 0 dataset.length key).Answers dataset
      (verdict dataset key { first := 0, len := dataset.length }) := by
  rcases eq_or_ne dataset [] with rfl | hd
  · exact ⟨Frame.sound_of_not (by simp [Frame.init]), rfl⟩
  · obtain ⟨hst, hsound, howes⟩ := Frame.init_spec hd {} key
    refine ⟨hsound, ?_⟩
    rw [howes, hst]
    rfl

/-- **The state machine answers as the plain search**, on any dataset. -/
theorem stateMachineBinarySearch_eq {dataset : List ℤ} {fuel : ℕ} (key : ℤ)
    (hfuel : dataset.length < fuel) :
    stateMachineBinarySearch fuel dataset 0 dataset.length key =
      some (verdict dataset key { first := 0, len := dataset.length }) := by
  have hinit := Frame.init_answers dataset key
  obtain ⟨r, hr, rfl⟩ : ∃ r, stateMachineBinarySearch fuel dataset 0 dataset.length key = some r ∧
      r = verdict dataset key { first := 0, len := dataset.length } := by
    refine iterate_total Frame.work (fun f hf => ?_) hinit
      (Nat.lt_of_le_of_lt (Frame.work_le hinit.1) hfuel)
    by_cases hst : f.state = .keepGoing
    · obtain ⟨done, f', hrun, hf', hwork⟩ := hf.run hst
      refine ⟨.inl f', ?_, hf', hwork⟩
      simp only [if_pos hst, hrun]
      rfl
    · exact ⟨.inr (f.state = .found), if_neg hst, hf.over hst⟩
  exact hr

/-- **Both searches of a sorted dataset answer whether the key occurs.** For every dataset in
non-decreasing order and every key, given fuel for a round per entry: the plain search and the
state machine end, have probed inside the dataset only, and return true exactly when the key
occurs. -/
theorem search_sorted (dataset : List ℤ) (hsorted : Sorted dataset) (key : ℤ) (fuel : ℕ)
    (hfuel : dataset.length < fuel) :
    vanillaBinarySearch fuel dataset 0 dataset.length key = some (decide (key ∈ dataset)) ∧
      stateMachineBinarySearch fuel dataset 0 dataset.length key =
        some (decide (key ∈ dataset)) := by
  rw [vanillaBinarySearch_eq key hfuel, stateMachineBinarySearch_eq key hfuel,
    verdict_sorted hsorted key]
  exact ⟨rfl, rfl⟩

/-- A run of duplicates at the end. -/
theorem search_sorted_duplicates :
    vanillaBinarySearch 6 [1, 3, 4, 4, 4] 0 5 4 = some true ∧
      stateMachineBinarySearch 6 [1, 3, 4, 4, 4] 0 5 4 = some true :=
  search_sorted [1, 3, 4, 4, 4] (by decide) 4 6 (by decide)

end Coroutines.BinarySearch
