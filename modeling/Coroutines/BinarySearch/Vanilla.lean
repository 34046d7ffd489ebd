import Mathlib.Data.Int.Notation
import Coroutines.Lib.Loop

/-!
# Plain binary search

`applications/binary-search/vanilla.hpp`. Iterators are positions in the dataset, and
reading outside of it is undefined. Nothing is assumed about the order of the
dataset here: the search always ends, and it always answers.
-/

namespace Coroutines.BinarySearch

open Loop

/-- The locals of the search loop: what is left to search. -/
structure Cursor where
  first : ℕ
  len : ℕ
deriving DecidableEq

/-- One round of `while (len > 0)`. -/
def vanillaBody (dataset : List ℤ) (val : ℤ) (c : Cursor) : Option (Cursor ⊕ Bool) :=
  if 0 < c.len then do
    let half := c.len / 2
    let middle := c.first + half
    let middleKey ← dataset[middle]?
    let next : Cursor :=
      if middleKey < val then { first := middle + 1, len := c.len - half - 1 }
      else { c with len := half }
    if middleKey = val then some (.inr true) else some (.inl next)
  else some (.inr false)

def vanillaBinarySearch (fuel : ℕ) (dataset : List ℤ) (first last : ℕ) (val : ℤ) :
    Option Bool :=
  iterate (vanillaBody dataset val) fuel { first := first, len := last - first }

/-! ## The answer -/

/-- The cursor stays inside the dataset. -/
def Cursor.Within (dataset : List ℤ) (c : Cursor) : Prop :=
  c.first + c.len ≤ dataset.length

/-- What is left to search after a probe at the middle has read `x`. -/
def Cursor.narrow (c : Cursor) (x val : ℤ) : Cursor :=
  if x < val then { first := c.first + c.len / 2 + 1, len := c.len - c.len / 2 - 1 }
  else { c with len := c.len / 2 }

theorem Cursor.narrow_len {c : Cursor} (hlen : 0 < c.len) (x val : ℤ) :
    (c.narrow x val).len < c.len := by
  unfold Cursor.narrow
  split
  · show c.len - c.len / 2 - 1 < c.len
    omega
  · show c.len / 2 < c.len
    omega

theorem Cursor.Within.narrow {dataset : List ℤ} {c : Cursor} (h : c.Within dataset)
    (hlen : 0 < c.len) (x val : ℤ) : (c.narrow x val).Within dataset := by
  unfold Cursor.Within at h
  unfold Cursor.narrow Cursor.Within
  split
  · show c.first + c.len / 2 + 1 + (c.len - c.len / 2 - 1) ≤ dataset.length
    omega
  · show c.first + c.len / 2 ≤ dataset.length
    omega

/-- The probe of a nonempty window reads inside the dataset. -/
theorem Cursor.Within.probe {dataset : List ℤ} {c : Cursor} (h : c.Within dataset)
    (hlen : 0 < c.len) : ∃ x, dataset[c.first + c.len / 2]? = some x := by
  unfold Cursor.Within at h
  exact ⟨_, List.getElem?_eq_getElem (by omega)⟩

theorem vanillaBody_probe {dataset : List ℤ} {val x : ℤ} {c : Cursor} (hlen : 0 < c.len)
    (hx : dataset[c.first + c.len / 2]? = some x) :
    vanillaBody dataset val c =
      if x = val then some (.inr true) else some (.inl (c.narrow x val)) := by
  simp [vanillaBody, hlen, hx, Cursor.narrow]

theorem vanillaBody_empty {dataset : List ℤ} {val : ℤ} {c : Cursor} (hlen : c.len = 0) :
    vanillaBody dataset val c = some (.inr false) := by
  simp [vanillaBody, hlen]

/-- Each round ends the search or narrows its window. -/
theorem vanillaBody_round {dataset : List ℤ} {c : Cursor} (val : ℤ) (h : c.Within dataset) :
    ∃ x, vanillaBody dataset val c = some x ∧
      Sum.elim (fun d : Cursor => d.Within dataset ∧ d.len < c.len) (fun _ => True) x := by
  rcases Nat.eq_zero_or_pos c.len with hlen | hlen
  · exact ⟨_, vanillaBody_empty hlen, trivial⟩
  · obtain ⟨x, hx⟩ := h.probe hlen
    rw [vanillaBody_probe hlen hx]
    by_cases heq : x = val
    · rw [if_pos heq]
      exact ⟨_, rfl, trivial⟩
    · rw [if_neg heq]
      exact ⟨_, rfl, h.narrow hlen x val, Cursor.narrow_len hlen x val⟩

/-- The search from a cursor is left before its window is used up. -/
theorem vanilla_ends {dataset : List ℤ} {fuel : ℕ} {c : Cursor} (val : ℤ)
    (h : c.Within dataset) (hfuel : c.len < fuel) :
    ∃ b, iterate (vanillaBody dataset val) fuel c = some b := by
  obtain ⟨b, hb, -⟩ :=
    iterate_total Cursor.len (fun _ hc => vanillaBody_round val hc) h hfuel
  exact ⟨b, hb⟩

/-- What the search from a cursor answers. -/
def verdict (dataset : List ℤ) (val : ℤ) (c : Cursor) : Bool :=
  (iterate (vanillaBody dataset val) (c.len + 1) c).getD false

theorem iterate_vanilla {dataset : List ℤ} {fuel : ℕ} {c : Cursor} (val : ℤ)
    (h : c.Within dataset) (hfuel : c.len < fuel) :
    iterate (vanillaBody dataset val) fuel c = some (verdict dataset val c) := by
  obtain ⟨b, hb⟩ := vanilla_ends val h (Nat.lt_succ_self c.len)
  rw [verdict, hb]
  exact iterate_mono hb hfuel

theorem vanillaBinarySearch_eq {dataset : List ℤ} {fuel : ℕ} (val : ℤ)
    (hfuel : dataset.length < fuel) :
    vanillaBinarySearch fuel dataset 0 dataset.length val =
      some (verdict dataset val { first := 0, len := dataset.length }) :=
  iterate_vanilla (c := { first := 0, len := dataset.length }) val
    (Nat.le_of_eq (Nat.zero_add _)) hfuel

theorem verdict_empty {dataset : List ℤ} {c : Cursor} (val : ℤ) (hlen : c.len = 0) :
    verdict dataset val c = false := by
  rw [verdict, iterate_exit _ (vanillaBody_empty hlen)]
  rfl

theorem verdict_hit {dataset : List ℤ} {val : ℤ} {c : Cursor} (hlen : 0 < c.len)
    (hx : dataset[c.first + c.len / 2]? = some val) : verdict dataset val c = true := by
  rw [verdict, iterate_exit _ (by rw [vanillaBody_probe hlen hx, if_pos rfl])]
  rfl

/-- A probe that does not hit leaves the answer to the narrowed window. -/
theorem verdict_narrow {dataset : List ℤ} {val x : ℤ} {c : Cursor} (h : c.Within dataset)
    (hlen : 0 < c.len) (hx : dataset[c.first + c.len / 2]? = some x) (hne : x ≠ val) :
    verdict dataset val c = verdict dataset val (c.narrow x val) := by
  have hnext : vanillaBody dataset val c = some (.inl (c.narrow x val)) := by
    rw [vanillaBody_probe hlen hx, if_neg hne]
  have hrest := iterate_vanilla val (h.narrow hlen x val) (Cursor.narrow_len hlen x val)
  rw [verdict, iterate_next _ hnext, hrest]
  rfl

end Coroutines.BinarySearch
