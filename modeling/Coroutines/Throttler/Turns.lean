import Coroutines.Lib.RoundRobin
import Coroutines.Throttler

/-!
# The order of throttled coroutines

The scheduler resumes the oldest handle, and a coroutine that awaits a prefetch goes behind the
others: coroutines take turns. In which order they complete depends on nothing but how often each
of them suspends, and it is the order of a queue with room for as many as the limit says.
-/

namespace Coroutines.Throttler

open Loop RoundRobin StaticQueueScheduler

variable {τ ρ ω : Type}

/-! ## Coroutines and their turns -/

/-- The coroutine suspends `k` times before it comes to its result. -/
inductive Takes (P : Program τ ρ ω) : τ → ℕ → ρ → Prop
  | last {frame : τ} {r : ρ} : P.resume frame = some (.inr r) → Takes P frame 0 r
  | turn {frame frame' : τ} {k : ℕ} {r : ρ} : P.resume frame = some (.inl frame') →
      Takes P frame' k r → Takes P frame (k + 1) r

/-- A coroutine to be spawned. -/
structure Job (τ ρ : Type) where
  frame : τ
  turns : ℕ
  result : ρ

/-- What the coroutines with these numbers deliver. -/
def delivered (jobs : List (Job τ ρ)) (numbers : List ℕ) : List ρ :=
  numbers.filterMap fun i => jobs[i]?.map Job.result

/-- `jobs` have been created and those of `done` have completed; `running` have been taken from
the scheduler, `queue` are in it, and `parked` are not yet scheduled. -/
structure Rounds (P : Program τ ρ ω) (n depth w : ℕ) (out : ω) (jobs : List (Job τ ρ))
    (done : List ℕ) (running queue parked : Queue ℕ) (s : Exec τ ω) : Prop where
  holding : Holding n depth running.length 0 (queue.map Prod.fst) s.scheduler s.limit
  below : n < depth
  created : s.frames.length = jobs.length
  known : ∀ i ∈ done, i < jobs.length
  distinct : ((running ++ (queue ++ parked)).map Prod.fst).Nodup
  frames : ∀ task ∈ running ++ (queue ++ parked), task.2 ≤ w ∧ ∃ frame job,
    s.frames[task.1]? = some (some frame) ∧ jobs[task.1]? = some job ∧
      Takes P frame task.2 job.result
  out : s.out = (delivered jobs done).foldl P.emit out

section
variable {P : Program τ ρ ω} {n depth w a k : ℕ} {out : ω} {jobs : List (Job τ ρ)}
  {done : List ℕ} {running queue parked : Queue ℕ} {s : Exec τ ω}

theorem Rounds.limit (h : Rounds P n depth w out jobs done running queue parked s) :
    s.limit.toNat + (running.length + queue.length) = n := by
  have hlimit := h.holding.limit
  rwa [List.length_map] at hlimit

/-- Taking the oldest handle from the scheduler. -/
theorem Rounds.take (h : Rounds P n depth w out jobs done [] ((a, k) :: queue) parked s) :
    ∃ scheduler, removeNextTask s.scheduler = (some a, scheduler) ∧
      Rounds P n depth w out jobs done [(a, k)] queue parked { s with scheduler := scheduler } := by
  obtain ⟨scheduler, htake, hholding⟩ := h.holding.take
  exact ⟨scheduler, htake, hholding, h.below, h.created, h.known, h.distinct, h.frames, h.out⟩

/-- Below its depth the scheduler also gives its oldest handle when it is asked whether it has
one. -/
theorem Rounds.tryTake (h : Rounds P n depth w out jobs done [] ((a, k) :: queue) parked s) :
    tryRemoveNextTask s.scheduler = removeNextTask s.scheduler := by
  apply h.holding.tryTake
  have hlimit := h.limit
  have hbelow := h.below
  rw [← List.map_cons (f := Prod.fst) (a := (a, k)), List.length_map]
  rw [List.length_nil] at hlimit
  omega

/-- The frame of another task is not touched. -/
theorem frames_set {tasks : Queue ℕ} {frames : List (Option τ)} (hnot : a ∉ tasks.map Prod.fst)
    (h : ∀ task ∈ tasks, task.2 ≤ w ∧ ∃ frame job, frames[task.1]? = some (some frame) ∧
      jobs[task.1]? = some job ∧ Takes P frame task.2 job.result) (x : Option τ) :
    ∀ task ∈ tasks, task.2 ≤ w ∧ ∃ frame job, (frames.set a x)[task.1]? = some (some frame) ∧
      jobs[task.1]? = some job ∧ Takes P frame task.2 job.result := by
  intro task htask
  obtain ⟨hw, frame, job, hframe, hrest⟩ := h task htask
  have hne : a ≠ task.1 := by
    rintro rfl
    exact hnot (List.mem_map.mpr ⟨task, htask, rfl⟩)
  exact ⟨hw, frame, job, by rw [List.getElem?_set_ne hne]; exact hframe, hrest⟩

/-- **A coroutine completes.** -/
theorem Rounds.complete (h : Rounds P n depth w out jobs done [(a, 0)] queue parked s) :
    ∃ t, hop P (a, s) = some (.inr t) ∧
      Rounds P n depth w out jobs (done ++ [a]) [] queue parked t := by
  obtain ⟨-, frame, job, hframe, hjob, htakes⟩ := h.frames (a, 0) List.mem_cons_self
  have hdistinct := List.nodup_cons.mp h.distinct
  cases htakes with
  | last hresume =>
      refine ⟨onTaskComplete { s with
          frames := s.frames.set a none
          out := P.emit s.out job.result }, ?_, h.holding.complete, h.below, ?_, ?_, hdistinct.2,
        ?_, ?_⟩
      · simp only [hop, hframe, hresume, Option.bind_eq_bind, Option.bind_some]
      · exact List.length_set.trans h.created
      · intro i hi
        rcases List.mem_append.mp hi with hi | hi
        · exact h.known i hi
        · rw [List.mem_singleton.mp hi]
          exact (List.getElem?_eq_some_iff.mp hjob).1
      · exact frames_set hdistinct.1
          (fun task htask => h.frames task (List.mem_cons_of_mem _ htask)) none
      · show P.emit s.out job.result = _
        rw [h.out, delivered, delivered, List.filterMap_append, List.foldl_append]
        simp [hjob]

/-- **A coroutine suspends**, goes behind the others, and the oldest one is next. -/
theorem Rounds.suspend (h : Rounds P n depth w out jobs done [(a, k + 1)] queue parked s) :
    ∃ b r queue' t, queue ++ [(a, k)] = (b, r) :: queue' ∧ hop P (a, s) = some (.inl (b, t)) ∧
      Rounds P n depth w out jobs done [(b, r)] queue' parked t := by
  obtain ⟨hw, frame, job, hframe, hjob, htakes⟩ := h.frames (a, k + 1) List.mem_cons_self
  have hdistinct := List.nodup_cons.mp h.distinct
  have hlt := (List.getElem?_eq_some_iff.mp hframe).1
  cases htakes with
  | @turn _ frame' _ _ hresume hrest =>
      have hs : Rounds P n depth w out jobs done [] (queue ++ [(a, k)]) parked { s with
          frames := s.frames.set a (some frame')
          scheduler := schedule s.scheduler a } := by
        refine ⟨?_, h.below, ?_, h.known, ?_, ?_, h.out⟩
        · rw [List.map_append]
          exact h.holding.push a
        · exact List.length_set.trans h.created
        · have hperm : (queue ++ [(a, k)] ++ parked).Perm ((a, k) :: (queue ++ parked)) := by
            rw [List.append_assoc]
            exact List.perm_middle
          rw [List.nil_append, (hperm.map Prod.fst).nodup_iff]
          exact h.distinct
        · intro task htask
          by_cases hthis : task = (a, k)
          · subst hthis
            exact ⟨Nat.le_of_succ_le hw, frame', job, List.getElem?_set_self hlt, hjob, hrest⟩
          · refine frames_set hdistinct.1
              (fun task htask => h.frames task (List.mem_cons_of_mem _ htask)) _ task ?_
            simp only [List.nil_append, List.mem_append, List.mem_singleton] at htask
            show task ∈ queue ++ parked
            rcases htask with (htask | htask) | htask
            · exact List.mem_append_left _ htask
            · exact absurd htask hthis
            · exact List.mem_append_right _ htask
      obtain ⟨⟨b, r⟩, queue', hcons⟩ : ∃ task queue', queue ++ [(a, k)] = task :: queue' :=
        List.exists_cons_of_ne_nil (by simp)
      rw [hcons] at hs
      obtain ⟨scheduler, htake, hrunning⟩ := hs.take
      refine ⟨b, r, queue', _, hcons, ?_, hrunning⟩
      simp only [hop, hframe, hresume, awaitSuspend, Option.bind_eq_bind, Option.bind_some, htake]

/-- **A resumption** takes turns until one coroutine completes. -/
theorem Rounds.resume (h : Rounds P n depth w out jobs done [(a, k)] queue parked s) {fuel : ℕ}
    (hfuel : work ((a, k) :: queue) < fuel) :
    ∃ t b queue', Throttler.resume P fuel s a = some t ∧
      finish ((a, k) :: queue) = some (b, queue') ∧
      Rounds P n depth w out jobs (done ++ [b]) [] queue' parked t := by
  have hiter : ∃ t, iterate (hop P) fuel (a, s) = some t ∧ ∃ b queue',
      finish ((a, k) :: queue) = some (b, queue') ∧
        Rounds P n depth w out jobs (done ++ [b]) [] queue' parked t := by
    refine iterate_ranked (I := fun rank x => ∃ r q, work ((x.1, r) :: q) = rank ∧
      finish ((x.1, r) :: q) = finish ((a, k) :: queue) ∧
      Rounds P n depth w out jobs done [(x.1, r)] q parked x.2) ?_ ⟨k, queue, rfl, rfl, h⟩ hfuel
    rintro rank ⟨b, t⟩ ⟨r, q, rfl, hfinish, ht⟩
    cases r with
    | zero =>
        obtain ⟨u, hhop, hu⟩ := ht.complete
        exact ⟨_, hhop, b, q, hfinish.symm.trans (finish_last b q), hu⟩
    | succ r =>
        obtain ⟨c, r', q', u, hcons, hhop, hu⟩ := ht.suspend
        refine ⟨_, hhop, work ((c, r') :: q'), ?_, r', q', rfl, ?_, hu⟩
        · rw [← hcons, work_turn]
          exact Nat.lt_succ_self _
        · rw [← hcons, ← finish_turn]
          exact hfinish
  obtain ⟨t, ht, b, queue', hfinish, hrounds⟩ := hiter
  exact ⟨t, b, queue', ht, hfinish, hrounds⟩

/-- What is in flight has no more turns left than `n` coroutines of `w` suspensions each. -/
theorem work_le {q : Queue ℕ} (hw : ∀ task ∈ q, task.2 ≤ w) (hlength : q.length ≤ n) :
    work q ≤ n * (w + 1) := by
  have hle : work q ≤ q.length * (w + 1) := by
    clear hlength
    induction q with
    | nil => exact Nat.zero_le _
    | cons task q ih =>
        have htask := hw task List.mem_cons_self
        have hrest := ih fun t ht => hw t (List.mem_cons_of_mem _ ht)
        rw [work, List.length_cons, Nat.succ_mul]
        omega
  exact hle.trans (Nat.mul_le_mul_right _ hlength)

/-- **The oldest handle is taken** from the scheduler and resumed. -/
theorem Rounds.advance (h : Rounds P n depth w out jobs done [] queue parked s) (hne : queue ≠ [])
    {fuel : ℕ} (hfuel : n * (w + 1) < fuel) :
    ∃ handle scheduler t b queue', removeNextTask s.scheduler = (some handle, scheduler) ∧
      tryRemoveNextTask s.scheduler = (some handle, scheduler) ∧
      Throttler.resume P fuel { s with scheduler := scheduler } handle = some t ∧
      finish queue = some (b, queue') ∧
      Rounds P n depth w out jobs (done ++ [b]) [] queue' parked t := by
  obtain ⟨⟨a, k⟩, rest, rfl⟩ := List.exists_cons_of_ne_nil hne
  obtain ⟨scheduler, htake, hrunning⟩ := h.take
  have hlimit := h.limit
  rw [List.length_nil] at hlimit
  have hwork : work ((a, k) :: rest) ≤ n * (w + 1) := by
    refine work_le (fun task htask => (h.frames task ?_).1) (by omega)
    exact List.mem_append_right _ (List.mem_append_left _ htask)
  obtain ⟨t, b, queue', hresume, hfinish, ht⟩ := hrunning.resume (hwork.trans_lt hfuel)
  exact ⟨a, scheduler, t, b, queue', htake, h.tryTake.trans htake, hresume, hfinish, ht⟩

/-! ## The throttler -/

theorem delivered_append {job : Job τ ρ} (hknown : ∀ i ∈ done, i < jobs.length) :
    delivered (jobs ++ [job]) done = delivered jobs done := by
  unfold delivered
  refine List.filterMap_congr fun i hi => ?_
  rw [List.getElem?_append_left (hknown i hi)]

/-- A new coroutine is created, and parked. -/
theorem Rounds.create (h : Rounds P n depth w out jobs done [] queue [] s) {job : Job τ ρ}
    (hw : job.turns ≤ w) (htakes : Takes P job.frame job.turns job.result) :
    Rounds P n depth w out (jobs ++ [job]) done [] queue [(jobs.length, job.turns)]
      { s with frames := s.frames ++ [some job.frame] } := by
  have hcreated := h.created
  have hold : ∀ task ∈ queue, task.1 < s.frames.length := by
    intro task htask
    obtain ⟨-, frame, -, hframe, -⟩ := h.frames task (by simpa using htask)
    exact (List.getElem?_eq_some_iff.mp hframe).1
  refine ⟨h.holding, h.below, ?_, ?_, ?_, ?_, ?_⟩
  · rw [List.length_append, List.length_append, hcreated]
    rfl
  · intro i hi
    rw [List.length_append]
    exact Nat.lt_add_right _ (h.known i hi)
  · have hdistinct := h.distinct
    rw [List.nil_append, List.append_nil] at hdistinct
    rw [List.nil_append, List.map_append, List.map_singleton, List.nodup_append]
    refine ⟨hdistinct, List.nodup_singleton _, ?_⟩
    intro i hi j hj
    obtain ⟨task, htask, rfl⟩ := List.mem_map.mp hi
    rw [List.mem_singleton.mp hj, ← hcreated]
    exact Nat.ne_of_lt (hold task htask)
  · intro task htask
    rw [List.nil_append] at htask
    rcases List.mem_append.mp htask with htask | htask
    · obtain ⟨hw', frame, job', hframe, hjob, hrest⟩ := h.frames task (by simpa using htask)
      refine ⟨hw', frame, job', ?_, ?_, hrest⟩
      · exact (List.getElem?_append_left (hold task htask)).trans hframe
      · rw [List.getElem?_append_left (hcreated ▸ hold task htask)]
        exact hjob
    · rw [List.mem_singleton.mp htask]
      refine ⟨hw, job.frame, job, ?_, List.getElem?_concat_length, htakes⟩
      show (s.frames ++ [some job.frame])[jobs.length]? = _
      rw [← hcreated]
      exact List.getElem?_concat_length
  · rw [delivered_append h.known]
    exact h.out

/-- **The parked coroutine is scheduled.** -/
theorem Rounds.enqueue (h : Rounds P n depth w out jobs done [] queue [(a, k)] s)
    (hne : s.limit ≠ 0) :
    Rounds P n depth w out jobs done [] (queue ++ [(a, k)]) []
      { s with scheduler := schedule s.scheduler a, limit := s.limit - 1 } := by
  have hlimit := h.limit
  have hbelow := h.below
  refine ⟨?_, hbelow, h.created, h.known, ?_, ?_, h.out⟩
  · rw [List.map_append]
    exact h.holding.schedule (by rw [List.length_map]; omega) hne a
  · rw [List.append_nil]
    exact h.distinct
  · rw [List.append_nil]
    exact h.frames

/-- **Spawning** a coroutine puts it in the queue. -/
theorem Rounds.spawn (h : Rounds P n depth w out jobs done [] queue [] s) (hn : 1 ≤ n) {fuel : ℕ}
    (hfuel : n * (w + 1) < fuel) {job : Job τ ρ} (hw : job.turns ≤ w)
    (htakes : Takes P job.frame job.turns job.result) :
    ∃ t, Throttler.spawn P fuel s job.frame = some t ∧
      Rounds P n depth w out (jobs ++ [job]) (accept n (queue, done) (jobs.length, job.turns)).2 []
        (accept n (queue, done) (jobs.length, job.turns)).1 [] t := by
  have hcreate := h.create hw htakes
  have hcreated := h.created
  have hlimit := h.limit
  rw [List.length_nil] at hlimit
  by_cases hzero : s.limit = 0
  · have h0 : s.limit.toNat = 0 := by
      rw [hzero]
      rfl
    have hne : queue ≠ [] := by
      rintro rfl
      rw [List.length_nil] at hlimit
      omega
    obtain ⟨handle, scheduler, t, b, queue', htake, -, hresume, hfinish, ht⟩ :=
      hcreate.advance hne hfuel
    have hfull : ¬ queue.length < n := by omega
    obtain ⟨b', queue₁, hfinish', hperm⟩ := finish_perm hne
    rw [hfinish] at hfinish'
    obtain ⟨rfl, rfl⟩ := Prod.mk.inj (Option.some.inj hfinish')
    have hcount := hperm.length_eq
    rw [List.length_cons, List.length_map, List.length_map] at hcount
    have hroom : t.limit ≠ 0 := by
      intro hnone
      have hlimit' : t.limit.toNat + (0 + queue'.length) = n := ht.limit
      rw [hnone] at hlimit'
      change 0 + (0 + queue'.length) = n at hlimit'
      omega
    have hs := ht.enqueue hroom
    refine ⟨{ t with scheduler := schedule t.scheduler jobs.length, limit := t.limit - 1 }, ?_, ?_⟩
    · simp only [Throttler.spawn, if_pos hzero, htake, hcreated, Option.bind_eq_bind,
        Option.bind_some, hresume]
    · simp only [accept, if_neg hfull, hfinish]
      exact hs
  · have hpos : s.limit.toNat ≠ 0 := fun h0 => hzero (BitVec.eq_of_toNat_eq h0)
    have hroom : queue.length < n := by omega
    refine ⟨{ s with
      frames := s.frames ++ [some job.frame]
      scheduler := schedule s.scheduler jobs.length
      limit := s.limit - 1 }, ?_, ?_⟩
    · simp only [Throttler.spawn, if_neg hzero, hcreated, Option.bind_eq_bind, Option.bind_some]
    · simp only [accept, if_pos hroom]
      exact hcreate.enqueue hzero

/-- **Running** the scheduler drains the queue. -/
theorem Rounds.run (h : Rounds P n depth w out jobs done [] queue [] s) {fuel : ℕ}
    (hfuel : n * (w + 1) < fuel) :
    ∃ t, Throttler.run P fuel s = some t ∧
      Rounds P n depth w out jobs (done ++ drain queue.length queue) [] [] [] t := by
  have hlimit := h.limit
  rw [List.length_nil] at hlimit
  have hqueue : queue.length < fuel := by
    have hle : n ≤ n * (w + 1) := Nat.le_mul_of_pos_right n (Nat.succ_pos w)
    omega
  refine iterate_ranked (I := fun rank t => ∃ done' queue', queue'.length = rank ∧
    done' ++ drain queue'.length queue' = done ++ drain queue.length queue ∧
    Rounds P n depth w out jobs done' [] queue' [] t) ?_ ⟨done, queue, rfl, rfl, h⟩ hqueue
  rintro rank t ⟨done', queue', rfl, hdrain, ht⟩
  rcases queue' with _ | ⟨task, rest⟩
  · have htry : tryRemoveNextTask t.scheduler = (none, t.scheduler) := ht.holding.holds.tryPop_nil
    refine ⟨.inr t, by simp only [runBody, htry], ?_⟩
    rw [← hdrain]
    simpa [drain] using ht
  · obtain ⟨handle, scheduler, u, b, queue₁, -, htry, hresume, hfinish, hu⟩ :=
      ht.advance (List.cons_ne_nil _ _) hfuel
    obtain ⟨b', queue₂, hfinish', hperm⟩ := finish_perm (List.cons_ne_nil task rest)
    rw [hfinish] at hfinish'
    obtain ⟨rfl, rfl⟩ := Prod.mk.inj (Option.some.inj hfinish')
    have hcount := hperm.length_eq
    simp only [List.length_cons, List.length_map, Nat.succ_inj] at hcount
    refine ⟨.inl u, ?_, queue₁.length, ?_, done' ++ [b], queue₁, rfl, ?_, hu⟩
    · simp only [runBody, htry, hresume, Option.map_some]
    · rw [hcount]
      exact Nat.lt_succ_self _
    · rw [← hdrain, List.length_cons, drain, hfinish, hcount, List.append_assoc]
      rfl

theorem initial_rounds (P : Program τ ρ ω) (w : ℕ) {scheduler : StaticQueueScheduler}
    {maxConcurrentTasks : BitVec 64} (out : ω) (hempty : scheduler.head = scheduler.tail)
    (hdepth : maxConcurrentTasks.toNat < scheduler.depth) :
    Rounds P maxConcurrentTasks.toNat scheduler.depth w out ([] : List (Job τ ρ)) [] [] [] []
      { frames := [], scheduler := scheduler, limit := maxConcurrentTasks, out := out } where
  holding := initial_holding maxConcurrentTasks hempty
  below := hdepth
  created := rfl
  known _ hi := absurd hi List.not_mem_nil
  distinct := List.nodup_nil
  frames _ htask := absurd htask List.not_mem_nil
  out := rfl

end

/-- **Coroutines complete in the order of the queue.** For every program of coroutines, every list
of them, each of which suspends a number of times of its own, and every limit from one on and below
the depth of an empty scheduler: the throttler comes to an end, and what is delivered, in order, is
what a queue with that much room finishes. -/
theorem spawnAll_eq_order (P : Program τ ρ ω) (scheduler : StaticQueueScheduler)
    (hempty : scheduler.head = scheduler.tail) (maxConcurrentTasks : BitVec 64)
    (hlow : 1 ≤ maxConcurrentTasks.toNat) (hdepth : maxConcurrentTasks.toNat < scheduler.depth)
    (out : ω) (jobs : List (Job τ ρ)) (w : ℕ)
    (htakes : ∀ job ∈ jobs, job.turns ≤ w ∧ Takes P job.frame job.turns job.result) (fuel : ℕ)
    (hfuel : maxConcurrentTasks.toNat * (w + 1) < fuel) :
    ∃ s, spawnAll P fuel scheduler maxConcurrentTasks out (jobs.map Job.frame) = some s ∧
      s.out = (delivered jobs
        (order maxConcurrentTasks.toNat (numbered (jobs.map Job.turns)))).foldl P.emit out := by
  obtain ⟨s₁, hspawn, h₁⟩ := foldlM_total (l := jobs)
    (f := fun s (job : Job τ ρ) => Throttler.spawn P fuel s job.frame)
    (fun created s => Rounds P maxConcurrentTasks.toNat scheduler.depth w out created
      ((numbered (created.map Job.turns)).foldl (accept maxConcurrentTasks.toNat) ([], [])).2 []
      ((numbered (created.map Job.turns)).foldl (accept maxConcurrentTasks.toNat) ([], [])).1 [] s)
    (by
      intro created job rest s hjobs hs
      obtain ⟨hw, hjob⟩ := htakes job (by rw [hjobs]; simp)
      obtain ⟨t, ht, hrounds⟩ := hs.spawn hlow hfuel hw hjob
      refine ⟨t, ht, ?_⟩
      rw [List.map_append, List.map_singleton, numbered_append, List.foldl_append, List.length_map]
      exact hrounds)
    (initial_rounds P w out hempty hdepth)
  obtain ⟨s₂, hrun₂, h₂⟩ := h₁.run hfuel
  obtain ⟨s₃, hrun₃, h₃⟩ := h₂.run hfuel
  refine ⟨s₃, ?_, ?_⟩
  · simp only [spawnAll, List.foldlM_map, hspawn, hrun₂, hrun₃, Option.bind_eq_bind,
      Option.bind_some]
  · rw [h₃.out]
    show (delivered jobs (_ ++ [])).foldl P.emit out = _
    rw [List.append_nil]
    rfl

/-- A coroutine with a name, and with the suspensions that are left to it. -/
def named : Program (ℕ × ℕ) ℕ (List ℕ) where
  resume
    | (name, 0) => some (.inr name)
    | (name, k + 1) => some (.inl (name, k))
  emit names name := names ++ [name]

/-- Four coroutines, two at a time: the second overtakes the first. -/
theorem spawnAll_eq_order_two_at_a_time :
    ∃ s, spawnAll named 7 (RingBuffer.new 3 (by decide)) 2 [] [(10, 2), (11, 0), (12, 1), (13, 0)] =
      some s ∧ s.out = [11, 10, 12, 13] := by
  have htakes : ∀ name k, Takes named (name, k) k name := by
    intro name k
    induction k with
    | zero => exact .last rfl
    | succ k ih => exact .turn rfl ih
  obtain ⟨s, hs, hout⟩ := spawnAll_eq_order named (RingBuffer.new 3 (by decide)) rfl 2 (by decide)
    (by decide) [] [⟨(10, 2), 2, 10⟩, ⟨(11, 0), 0, 11⟩, ⟨(12, 1), 1, 12⟩, ⟨(13, 0), 0, 13⟩] 2
    (by simp [htakes]) 7 (by decide)
  exact ⟨s, hs, hout.trans (by decide)⟩

end Coroutines.Throttler
