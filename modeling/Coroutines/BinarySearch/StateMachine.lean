import Coroutines.BinarySearch.Vanilla
import Coroutines.Lib.Tally

/-!
# Interleaved binary search by hand

`applications/binary-search/state_machine.hpp`. A `Frame` is a search that can be
left after every probe; `state_machine_multi_lookup` keeps `n_streams` of them in a
vector, rotates over them while keys are left, and drains them at the end. Pointers are
positions in the dataset; a prefetch has no effect on the state.
-/

namespace Coroutines.BinarySearch

open Loop Tally

/-! ## One frame -/

inductive Frame.State
  | keepGoing
  | found
  | notFound
  | empty
deriving DecidableEq

structure Frame where
  first : ℕ := 0
  last : ℕ := 0
  middle : ℕ := 0
  len : ℕ := 0
  half : ℕ := 0
  val : ℤ := 0
  state : Frame.State := .empty
deriving DecidableEq

/-- `Frame::init`. -/
def Frame.init (f : Frame) (first last : ℕ) (key : ℤ) : Frame :=
  let f := { f with val := key, first := first, last := last, len := last - first }
  if f.len = 0 then { f with state := .notFound }
  else { f with half := f.len / 2, middle := f.first + f.len / 2, state := .keepGoing }

/-- The first half of `Frame::run`: the probe has read `x`. -/
def Frame.narrow (f : Frame) (x : ℤ) : Frame :=
  if x < f.val then { f with first := f.middle + 1, len := f.len - f.half - 1 }
  else { f with len := f.half }

/-- `Frame::run`: true when the search is over. -/
def Frame.run (dataset : List ℤ) (f : Frame) : Option (Bool × Frame) := do
  let x ← dataset[f.middle]?
  let f := f.narrow x
  if x = f.val then some (true, { f with state := .found })
  else if 0 < f.len then
    some (false, { f with half := f.len / 2, middle := f.first + f.len / 2 })
  else some (true, { f with state := .notFound })

/-- The window a frame has left. -/
def Frame.cursor (f : Frame) : Cursor where
  first := f.first
  len := f.len

/-- A frame that keeps going has its next probe in place. -/
def Frame.Sound (dataset : List ℤ) (f : Frame) : Prop :=
  f.state = .keepGoing →
    0 < f.len ∧ f.half = f.len / 2 ∧ f.middle = f.first + f.len / 2 ∧ f.cursor.Within dataset

/-- One if the frame is still going to report its key as found. -/
def Frame.owes (dataset : List ℤ) (f : Frame) : ℕ :=
  if f.state = .keepGoing then (verdict dataset f.val f.cursor).toNat else 0

/-- A bound on the number of times the frame can still run. -/
def Frame.work (f : Frame) : ℕ :=
  if f.state = .keepGoing then f.len else 0

theorem Frame.owes_of_not {dataset : List ℤ} {f : Frame} (h : f.state ≠ .keepGoing) :
    f.owes dataset = 0 :=
  if_neg h

theorem Frame.work_of_not {f : Frame} (h : f.state ≠ .keepGoing) : f.work = 0 :=
  if_neg h

theorem Frame.sound_of_not {dataset : List ℤ} {f : Frame} (h : f.state ≠ .keepGoing) :
    f.Sound dataset :=
  fun hf => absurd hf h

theorem Frame.work_le {dataset : List ℤ} {f : Frame} (h : f.Sound dataset) :
    f.work ≤ dataset.length := by
  unfold Frame.work
  split
  · rename_i hst
    have hw : f.first + f.len ≤ dataset.length := (h hst).2.2.2
    omega
  · exact Nat.zero_le _

@[simp] theorem Frame.narrow_val (f : Frame) (x : ℤ) : (f.narrow x).val = f.val := by
  unfold Frame.narrow
  split <;> rfl

@[simp] theorem Frame.narrow_state (f : Frame) (x : ℤ) : (f.narrow x).state = f.state := by
  unfold Frame.narrow
  split <;> rfl

theorem Frame.narrow_cursor {f : Frame} (hhalf : f.half = f.len / 2)
    (hmiddle : f.middle = f.first + f.len / 2) (x : ℤ) :
    (f.narrow x).cursor = f.cursor.narrow x f.val := by
  unfold Frame.narrow Cursor.narrow Frame.cursor
  rw [hhalf, hmiddle]
  split <;> rfl

/-- What one `run` of a frame that keeps going comes to. -/
structure Frame.Ran (dataset : List ℤ) (f : Frame) (done : Bool) (f' : Frame) : Prop where
  sound : f'.Sound dataset
  going : f'.state = .keepGoing ↔ done = false
  work : f'.work < f.work
  owes : f'.owes dataset + (if f'.state = .found then 1 else 0) = f.owes dataset

/-- **A frame runs as the plain search does**: one `run` is one round of its loop. -/
theorem Frame.run_spec {dataset : List ℤ} {f : Frame} (h : f.Sound dataset)
    (hst : f.state = .keepGoing) :
    ∃ done f', f.run dataset = some (done, f') ∧ Frame.Ran dataset f done f' := by
  obtain ⟨hlen, hhalf, hmiddle, hwithin⟩ := h hst
  obtain ⟨x, hx⟩ := hwithin.probe hlen
  have hprobe : dataset[f.middle]? = some x := by
    rw [hmiddle]
    exact hx
  have hwork : f.work = f.len := if_pos hst
  have hcursor := Frame.narrow_cursor hhalf hmiddle x
  have hshorter : (f.narrow x).len < f.len := by
    have := Cursor.narrow_len (c := f.cursor) hlen x f.val
    rwa [← hcursor] at this
  by_cases hhit : x = f.val
  · refine ⟨true, { f.narrow x with state := .found }, ?_, ?_⟩
    · simp [Frame.run, hprobe, hhit]
    · have howes : f.owes dataset = 1 := by
        rw [Frame.owes, if_pos hst, verdict_hit hlen (hhit ▸ hx)]
        rfl
      refine ⟨Frame.sound_of_not (by simp), by simp, ?_, ?_⟩
      · rw [hwork, Frame.work_of_not (by simp)]
        exact hlen
      · rw [howes, Frame.owes_of_not (by simp), if_pos rfl]
  · have howes : f.owes dataset = (verdict dataset f.val (f.narrow x).cursor).toNat := by
      rw [Frame.owes, if_pos hst, verdict_narrow hwithin hlen hx hhit, ← hcursor]
    rcases Nat.eq_zero_or_pos (f.narrow x).len with hend | hmore
    · refine ⟨true, { f.narrow x with state := .notFound }, ?_, ?_⟩
      · simp [Frame.run, hprobe, hhit, hend]
      · refine ⟨Frame.sound_of_not (by simp), by simp, ?_, ?_⟩
        · rw [hwork, Frame.work_of_not (by simp)]
          exact hlen
        · rw [howes, verdict_empty _ hend, Frame.owes_of_not (by simp)]
          rfl
    · refine ⟨false, { f.narrow x with
        half := (f.narrow x).len / 2
        middle := (f.narrow x).first + (f.narrow x).len / 2 }, ?_, ?_⟩
      · simp [Frame.run, hprobe, hhit, hmore]
      · refine ⟨fun _ => ⟨hmore, rfl, rfl, ?_⟩, by simp [hst], ?_, ?_⟩
        · have := hwithin.narrow hlen x f.val
          rwa [← hcursor] at this
        · rw [hwork]
          simpa [Frame.work, hst] using hshorter
        · rw [howes, Frame.owes, if_pos (by simp [hst])]
          simp [hst, Frame.cursor]

/-- A frame put to a nonempty dataset keeps going, and owes what the plain search says. -/
theorem Frame.init_spec {dataset : List ℤ} (hd : dataset ≠ []) (f : Frame) (key : ℤ) :
    (f.init 0 dataset.length key).state = .keepGoing ∧
    (f.init 0 dataset.length key).Sound dataset ∧
    (f.init 0 dataset.length key).owes dataset =
      (verdict dataset key { first := 0, len := dataset.length }).toNat := by
  have hpos : 0 < dataset.length := List.length_pos_iff.mpr hd
  have hinit : f.init 0 dataset.length key = { f with
      val := key, first := 0, last := dataset.length, len := dataset.length
      half := dataset.length / 2, middle := 0 + dataset.length / 2, state := .keepGoing } := by
    simp [Frame.init, hd]
  rw [hinit]
  exact ⟨rfl, fun _ => ⟨hpos, rfl, rfl, Nat.le_of_eq (Nat.zero_add _)⟩, if_pos rfl⟩

def stateMachineBinarySearch (fuel : ℕ) (dataset : List ℤ) (first last : ℕ) (key : ℤ) :
    Option Bool :=
  let body (f : Frame) : Option (Frame ⊕ Bool) :=
    if f.state = .keepGoing then do
      let (_, f) ← f.run dataset
      some (.inl f)
    else some (.inr (f.state = .found))
  iterate body fuel (Frame.init {} first last key)

/-! ## Many lookups over a rotating vector of frames -/

/-- The locals of `state_machine_multi_lookup`. -/
structure Pool where
  frames : List Frame
  i : ℕ
  result : ℕ
  /-- History: the state of each frame that `run` was called on, at the call. -/
  ran : List Frame.State

/-- Run `frames[j]`, counting a positive result. -/
def Pool.runFrame (dataset : List ℤ) (p : Pool) (j : ℕ) : Option (Bool × Pool) := do
  let f ← p.frames[j]?
  let (done, f') ← f.run dataset
  some (done, { p with
    frames := p.frames.set j f'
    result := if done ∧ f'.state = .found then p.result + 1 else p.result
    ran := p.ran ++ [f.state] })

/-- `i = (0 == i) ? N : i - 1`. -/
def Pool.rotate (N : ℕ) (p : Pool) : Pool :=
  { p with i := if p.i = 0 then N else p.i - 1 }

/-- Initialize `frames[i]` for the next key and move on. -/
def Pool.start (dataset : List ℤ) (N : ℕ) (p : Pool) (key : ℤ) : Option Pool := do
  let f ← p.frames[p.i]?
  some ({ p with frames := p.frames.set p.i (f.init 0 dataset.length key) }.rotate N)

/-- One round of `for (;;)`: switch between active frames until one completes. -/
def switchBody (dataset : List ℤ) (N : ℕ) (key : ℤ) (p : Pool) : Option (Pool ⊕ Pool) := do
  let (done, p) ← p.runFrame dataset p.i
  if done then
    let p ← p.start dataset N key
    some (.inr p)
  else some (.inl (p.rotate N))

/-- One round of the loop over the lookups. -/
def lookupKey (fuel : ℕ) (dataset : List ℤ) (N : ℕ) (p : Pool) (key : ℤ) : Option Pool := do
  let f ← p.frames[p.i]?
  if f.state = .keepGoing then iterate (switchBody dataset N key) fuel p
  else p.start dataset N key

/-- One round of the loop over the frames inside `do … while`; the flag is `more_work`. -/
def drainFrame (dataset : List ℤ) (s : Pool × Bool) (j : ℕ) : Option (Pool × Bool) := do
  let f ← s.1.frames[j]?
  if f.state = .keepGoing then
    let (_, p) ← s.1.runFrame dataset j
    some (p, true)
  else some s

/-- One round of `do … while (more_work)`. -/
def drainBody (dataset : List ℤ) (p : Pool) : Option (Pool ⊕ Pool) := do
  let (p, moreWork) ← (List.range p.frames.length).foldlM (drainFrame dataset) (p, false)
  if moreWork then some (.inl p) else some (.inr p)

/-- The final `Pool` carries the returned `result` and the history of the run. -/
def stateMachineMultiLookup (fuel : ℕ) (dataset lookups : List ℤ) (nStreams : ℕ) :
    Option Pool := do
  let N := nStreams - 1
  let p : Pool := { frames := List.replicate nStreams {}, i := N, result := 0, ran := [] }
  let p ← lookups.foldlM (lookupKey fuel dataset N) p
  iterate (drainBody dataset) fuel p

/-! ## Nothing is dropped, and nothing counted twice -/

/-- What the plain search answers on the whole dataset. -/
def answer (dataset : List ℤ) (key : ℤ) : Bool :=
  verdict dataset key { first := 0, len := dataset.length }

def Pool.work (p : Pool) : ℕ := weigh Frame.work p.frames

/-- `total` positive answers are either in the result or still owed by some frame, and
only frames that keep going have been run. -/
structure Pool.Inv (dataset : List ℤ) (n total : ℕ) (p : Pool) : Prop where
  length : p.frames.length = n
  bound : p.i < n
  sound : ∀ f ∈ p.frames, f.Sound dataset
  ran : ∀ st ∈ p.ran, st = .keepGoing
  count : p.result + weigh (Frame.owes dataset) p.frames = total

/-- Every frame keeps going. -/
def Pool.Full (p : Pool) : Prop := ∀ f ∈ p.frames, f.state = .keepGoing

/-- Before the first full round: the frames past `i` keep going, the others are empty. -/
def Pool.Filling (p : Pool) : Prop :=
  ∀ j f, p.frames[j]? = some f → (f.state = .keepGoing ↔ p.i < j)

theorem Pool.Inv.work_le {dataset : List ℤ} {n total : ℕ} {p : Pool}
    (h : p.Inv dataset n total) : p.work ≤ n * dataset.length := by
  rw [← h.length]
  exact weigh_le fun f hf => Frame.work_le (h.sound f hf)

theorem rotate_bound {n i : ℕ} (h : i < n) : (if i = 0 then n - 1 else i - 1) < n := by
  split <;> omega

theorem Pool.Inv.rotate {dataset : List ℤ} {n total : ℕ} {p : Pool}
    (h : p.Inv dataset n total) : (p.rotate (n - 1)).Inv dataset n total :=
  ⟨h.length, rotate_bound h.bound, h.sound, h.ran, h.count⟩

theorem forall_mem_set {α : Type*} {P : α → Prop} {l : List α} (h : ∀ a ∈ l, P a) (i : ℕ)
    {b : α} (hb : P b) : ∀ a ∈ l.set i b, P a := by
  intro a ha
  rcases List.mem_or_eq_of_mem_set ha with hmem | rfl
  · exact h a hmem
  · exact hb

/-- **One run of a frame that keeps going** settles the accounts of the pool. -/
theorem Pool.Inv.runFrame {dataset : List ℤ} {n total j : ℕ} {p : Pool} {f : Frame}
    (h : p.Inv dataset n total) (hf : p.frames[j]? = some f) (hst : f.state = .keepGoing) :
    ∃ done f' q, p.runFrame dataset j = some (done, q) ∧ Frame.Ran dataset f done f' ∧
      q.Inv dataset n total ∧ q.frames = p.frames.set j f' ∧ q.i = p.i ∧ q.work < p.work := by
  obtain ⟨done, f', hrun, hran⟩ := Frame.run_spec (h.sound f (List.mem_of_getElem? hf)) hst
  refine ⟨done, f', { p with
    frames := p.frames.set j f'
    result := if done ∧ f'.state = .found then p.result + 1 else p.result
    ran := p.ran ++ [f.state] }, ?_, hran, ?_, rfl, rfl, ?_⟩
  · simp [Pool.runFrame, hf, hrun]
  · refine ⟨?_, h.bound, forall_mem_set h.sound j hran.sound, ?_, ?_⟩
    · rw [List.length_set]
      exact h.length
    · intro st hmem
      rcases List.mem_append.mp hmem with hmem | hmem
      · exact h.ran st hmem
      · rw [List.mem_singleton.mp hmem]
        exact hst
    · have hcount := h.count
      have hset := weigh_set (w := Frame.owes dataset) hf f'
      have howes := hran.owes
      -- a frame that has found its key is done
      have hfound : (done = true ∧ f'.state = .found) ↔ f'.state = .found := by
        refine ⟨And.right, fun hfs => ⟨?_, hfs⟩⟩
        by_contra hnot
        have := hran.going.mpr (by simpa using hnot)
        rw [hfs] at this
        cases this
      show (if done = true ∧ f'.state = .found then p.result + 1 else p.result) +
        weigh (Frame.owes dataset) (p.frames.set j f') = total
      simp only [hfound]
      split at howes <;> rename_i hfs
      · rw [if_pos hfs]
        omega
      · rw [if_neg hfs]
        omega
  · have hset := weigh_set (w := Frame.work) hf f'
    have hwork := hran.work
    show weigh Frame.work (p.frames.set j f') < weigh Frame.work p.frames
    omega

/-- **A frame that is not going takes the next key.** -/
theorem Pool.Inv.start {dataset : List ℤ} {n total : ℕ} {p : Pool} {f : Frame}
    (hd : dataset ≠ []) (h : p.Inv dataset n total) (hf : p.frames[p.i]? = some f)
    (hst : f.state ≠ .keepGoing) (key : ℤ) :
    ∃ g q, p.start dataset (n - 1) key = some q ∧ g.state = .keepGoing ∧
      q.Inv dataset n (total + (answer dataset key).toNat) ∧
      q.frames = p.frames.set p.i g ∧ q.i = if p.i = 0 then n - 1 else p.i - 1 := by
  obtain ⟨hgoing, hsound, howes⟩ := Frame.init_spec hd f key
  refine ⟨f.init 0 dataset.length key, _, by rw [Pool.start, hf]; rfl, hgoing, ?_, rfl, rfl⟩
  refine ⟨?_, rotate_bound h.bound, forall_mem_set h.sound p.i hsound, h.ran, ?_⟩
  · show (p.frames.set p.i (f.init 0 dataset.length key)).length = n
    rw [List.length_set]
    exact h.length
  · have hcount := h.count
    have hset := weigh_set (w := Frame.owes dataset) hf (f.init 0 dataset.length key)
    rw [Frame.owes_of_not hst, howes] at hset
    show p.result + weigh (Frame.owes dataset)
      (p.frames.set p.i (f.init 0 dataset.length key)) = total + (answer dataset key).toNat
    unfold answer
    omega

theorem Pool.Inv.current {dataset : List ℤ} {n total : ℕ} {p : Pool}
    (h : p.Inv dataset n total) : ∃ f, p.frames[p.i]? = some f :=
  ⟨_, List.getElem?_eq_getElem (by rw [h.length]; exact h.bound)⟩

/-- A round of `for (;;)` either places the key or has brought some search forward. -/
theorem switchBody_round {dataset : List ℤ} {n total : ℕ} (hd : dataset ≠ []) (key : ℤ)
    {p : Pool} (h : p.Inv dataset n total ∧ p.Full) :
    ∃ x, switchBody dataset (n - 1) key p = some x ∧
      Sum.elim (fun q : Pool => (q.Inv dataset n total ∧ q.Full) ∧ q.work < p.work)
        (fun q => q.Inv dataset n (total + (answer dataset key).toNat) ∧ q.Full) x := by
  obtain ⟨hinv, hfull⟩ := h
  obtain ⟨f, hf⟩ := hinv.current
  have hst := hfull f (List.mem_of_getElem? hf)
  obtain ⟨done, f', q, hrun, hran, hq, hframes, hqi, hwork⟩ := hinv.runFrame hf hst
  have hlt : p.i < p.frames.length := by
    rw [hinv.length]
    exact hinv.bound
  cases done with
  | true =>
      have hf' : q.frames[q.i]? = some f' := by
        rw [hframes, hqi, List.getElem?_set_self hlt]
      have hdone : f'.state ≠ .keepGoing := by
        intro hgoing
        cases hran.going.mp hgoing
      obtain ⟨g, r, hstart, hg, hr, hrframes, -⟩ := hq.start hd hf' hdone key
      refine ⟨.inr r, by simp [switchBody, hrun, hstart], hr, ?_⟩
      rw [Pool.Full, hrframes, hframes, hqi, List.set_set]
      exact forall_mem_set hfull p.i hg
  | false =>
      refine ⟨.inl (q.rotate (n - 1)), by simp [switchBody, hrun], ⟨hq.rotate, ?_⟩, hwork⟩
      show ∀ f ∈ q.frames, f.state = .keepGoing
      rw [hframes]
      exact forall_mem_set hfull p.i (hran.going.mpr rfl)

/-- A key is placed in an empty frame, or once some search has completed. -/
theorem lookupKey_spec {dataset : List ℤ} {fuel n total : ℕ} {p : Pool} (hd : dataset ≠ [])
    (hfuel : n * dataset.length < fuel) (key : ℤ) (h : p.Inv dataset n total)
    (hready : p.Full ∨ p.Filling) :
    ∃ q, lookupKey fuel dataset (n - 1) p key = some q ∧
      q.Inv dataset n (total + (answer dataset key).toNat) ∧ (q.Full ∨ q.Filling) := by
  obtain ⟨f, hf⟩ := h.current
  rcases hready with hfull | hfilling
  · have hst := hfull f (List.mem_of_getElem? hf)
    obtain ⟨q, hq, hinv, hqfull⟩ := iterate_total Pool.work
      (fun _ hp => switchBody_round hd key hp) ⟨h, hfull⟩
      (Nat.lt_of_le_of_lt h.work_le hfuel)
    exact ⟨q, by simp [lookupKey, hf, hst, hq], hinv, Or.inl hqfull⟩
  · have hst : f.state ≠ .keepGoing := fun hgoing =>
      Nat.lt_irrefl p.i ((hfilling p.i f hf).mp hgoing)
    obtain ⟨g, q, hstart, hg, hinv, hframes, hqi⟩ := h.start hd hf hst key
    refine ⟨q, by simp [lookupKey, hf, hst, hstart], hinv, ?_⟩
    -- the frames from `i` on keep going now; at zero these are all of them
    have hfrom : ∀ j f, q.frames[j]? = some f → (f.state = .keepGoing ↔ p.i ≤ j) := by
      intro j f hj
      rw [hframes, List.getElem?_set] at hj
      split at hj
      · rename_i hij
        split at hj
        · cases hj
          exact iff_of_true hg (Nat.le_of_eq hij)
        · cases hj
      · rename_i hij
        rw [hfilling j f hj]
        omega
    by_cases hzero : p.i = 0
    · left
      intro f hmem
      obtain ⟨j, hj⟩ := List.getElem?_of_mem hmem
      exact (hfrom j f hj).mpr (by omega)
    · right
      intro j f hj
      rw [hfrom j f hj, hqi, if_neg hzero]
      omega

/-- What a pass over the frames has come to, from `p`: either it has brought some search
forward, or no frame seen so far keeps going. -/
structure Drained (dataset : List ℤ) (n total : ℕ) (p : Pool) (seen : List ℕ)
    (s : Pool × Bool) : Prop where
  inv : s.1.Inv dataset n total
  more : s.2 = true → s.1.work < p.work
  idle : s.2 = false → s.1 = p ∧
    ∀ j ∈ seen, ∀ f, p.frames[j]? = some f → f.state ≠ .keepGoing

theorem drainFrame_spec {dataset : List ℤ} {n total j : ℕ} {p : Pool} {seen : List ℕ}
    {s : Pool × Bool} (hj : j < n) (h : Drained dataset n total p seen s) :
    ∃ t, drainFrame dataset s j = some t ∧ Drained dataset n total p (seen ++ [j]) t := by
  obtain ⟨q, more⟩ := s
  obtain ⟨f, hf⟩ : ∃ f, q.frames[j]? = some f :=
    ⟨_, List.getElem?_eq_getElem (by rw [h.inv.length]; exact hj)⟩
  by_cases hst : f.state = .keepGoing
  · obtain ⟨done, f', r, hrun, -, hr, -, -, hwork⟩ := h.inv.runFrame hf hst
    have hwork' : r.work < p.work := by
      cases more with
      | true => exact Nat.lt_trans hwork (h.more rfl)
      | false =>
          have hqp : q = p := (h.idle rfl).1
          rw [← hqp]
          exact hwork
    exact ⟨(r, true), by simp [drainFrame, hf, hst, hrun], hr, fun _ => hwork',
      fun hm => by cases hm⟩
  · refine ⟨(q, more), by simp [drainFrame, hf, hst], h.inv, h.more, fun hm => ?_⟩
    obtain ⟨hqp, hseen⟩ := h.idle hm
    refine ⟨hqp, fun k hk g hg => ?_⟩
    rcases List.mem_append.mp hk with hk | hk
    · exact hseen k hk g hg
    · have hqp : q = p := hqp
      rw [List.mem_singleton.mp hk, ← hqp, hf] at hg
      cases hg
      exact hst

/-- A pass of `do … while` either brings some search forward, or finds all of them over. -/
theorem drainBody_round {dataset : List ℤ} {n total : ℕ} {p : Pool}
    (h : p.Inv dataset n total) :
    ∃ x, drainBody dataset p = some x ∧
      Sum.elim (fun q : Pool => q.Inv dataset n total ∧ q.work < p.work)
        (fun q => q.Inv dataset n total ∧ ∀ f ∈ q.frames, f.state ≠ .keepGoing) x := by
  have hinit : Drained dataset n total p [] (p, false) :=
    ⟨h, nofun, fun _ => ⟨rfl, nofun⟩⟩
  obtain ⟨⟨q, more⟩, hpass, hq⟩ := foldlM_total (Drained dataset n total p)
    (l := List.range p.frames.length) (f := drainFrame dataset)
    (fun done j todo s hl hs => drainFrame_spec (by
      have hj : j ∈ List.range p.frames.length := by
        rw [hl]
        simp
      rw [List.mem_range, h.length] at hj
      exact hj) hs) hinit
  cases more with
  | true => exact ⟨.inl q, by simp [drainBody, hpass], hq.inv, hq.more rfl⟩
  | false =>
      refine ⟨.inr q, by simp [drainBody, hpass], hq.inv, fun f hf => ?_⟩
      obtain ⟨hqp, hseen⟩ := hq.idle rfl
      obtain ⟨j, hj⟩ := List.getElem?_of_mem hf
      have hqp : q = p := hqp
      rw [hqp] at hj
      exact hseen j (List.mem_range.mpr (List.getElem?_eq_some_iff.mp hj).1) f hj

/-- The vector of frames before the first key. -/
theorem initial_pool_inv (dataset : List ℤ) {n : ℕ} (hn : 1 ≤ n) :
    Pool.Inv dataset n 0
      { frames := List.replicate n {}, i := n - 1, result := 0, ran := [] } where
  length := List.length_replicate
  bound := by
    show n - 1 < n
    omega
  sound f hf := by
    rw [List.eq_of_mem_replicate hf]
    exact Frame.sound_of_not (by simp)
  ran st hst := by cases hst
  count := by
    show 0 + weigh (Frame.owes dataset) (List.replicate n {}) = 0
    rw [Nat.zero_add]
    refine weigh_eq_zero fun f hf => ?_
    rw [List.eq_of_mem_replicate hf]
    exact Frame.owes_of_not (by simp)

/-- **Interleaved lookups agree with the plain search.** For every nonempty dataset,
sorted or not, every list of keys and at least one stream: given fuel for one round per
frame and entry, the lookup is over, it has run only frames that keep going, and its
result is the number of keys for which the plain search returns true. -/
theorem multi_lookup_counts (dataset lookups : List ℤ) (nStreams fuel : ℕ)
    (hd : dataset ≠ []) (hn : 1 ≤ nStreams) (hfuel : nStreams * dataset.length < fuel) :
    ∃ p, stateMachineMultiLookup fuel dataset lookups nStreams = some p ∧
      (∀ st ∈ p.ran, st = .keepGoing) ∧
      p.result = lookups.countP fun key =>
        vanillaBinarySearch fuel dataset 0 dataset.length key = some true := by
  have hvanilla : ∀ key, vanillaBinarySearch fuel dataset 0 dataset.length key =
      some (answer dataset key) := by
    intro key
    exact vanillaBinarySearch_eq key
      (Nat.lt_of_le_of_lt (Nat.le_mul_of_pos_left _ hn) hfuel)
  have hfilling : Pool.Filling
      { frames := List.replicate nStreams {}, i := nStreams - 1, result := 0, ran := [] } := by
    intro j f hj
    have hlt : j < nStreams := by
      simpa using (List.getElem?_eq_some_iff.mp hj).1
    rw [List.eq_of_mem_replicate (List.mem_of_getElem? hj)]
    apply iff_of_false (by simp)
    show ¬ nStreams - 1 < j
    omega
  obtain ⟨p, hp, hinv, -⟩ := foldlM_total
    (fun done p => Pool.Inv dataset nStreams (done.countP (answer dataset)) p ∧
      (p.Full ∨ p.Filling))
    (l := lookups) (f := lookupKey fuel dataset (nStreams - 1))
    (fun done key _ p _ hp => by
      obtain ⟨q, hq, hinv, hready⟩ := lookupKey_spec hd hfuel key hp.1 hp.2
      refine ⟨q, hq, ?_, hready⟩
      rw [List.countP_append, List.countP_singleton]
      cases hans : answer dataset key <;> simpa [hans] using hinv)
    ⟨initial_pool_inv dataset hn, Or.inr hfilling⟩
  obtain ⟨q, hq, hqinv, hover⟩ := iterate_total Pool.work
    (fun _ h => drainBody_round h) hinv (Nat.lt_of_le_of_lt hinv.work_le hfuel)
  refine ⟨q, by simp [stateMachineMultiLookup, hp, hq], hqinv.ran, ?_⟩
  have hcount := hqinv.count
  rw [weigh_eq_zero fun f hf => Frame.owes_of_not (hover f hf), Nat.add_zero] at hcount
  simpa [hvanilla] using hcount

/-- More keys than streams, with repeats, and a key that the unsorted dataset hides. -/
theorem multi_lookup_counts_two_streams :
    ∃ p, stateMachineMultiLookup 9 [3, 1, 4, 6] [4, 1, 3, 4, 7] 2 = some p ∧
      (∀ st ∈ p.ran, st = .keepGoing) ∧ p.result = 3 := by
  obtain ⟨p, hp, hran, hresult⟩ := multi_lookup_counts [3, 1, 4, 6] [4, 1, 3, 4, 7] 2 9
    (by decide) (by decide) (by decide)
  exact ⟨p, hp, hran, hresult.trans (by decide)⟩

end Coroutines.BinarySearch
