import Coroutines.TimerQueue

/-!
# What the queue hands over

As long as no APC runs in a wait for the mutex, what the operations return is what was pushed, in
the same order, and an object is in the hands of at most one thread. The event is never reset: it
wakes a `pop` that waits for the first object, and from then on no `pop` waits any more, it tests
the buffer again and again.
-/

namespace Coroutines.TimerQueue

open Transition System Function

variable {T : Type}

/-! ## The history of the pushes -/

/-- What a step adds to the buffer. -/
def pushes (s : State T) : Act T → List T
  | .go t =>
      match s.layers t with
      | .call c :: _ =>
          match c.pc, c.op with
          | .pushing, .push obj => [obj]
          | _, _ => []
      | _ => []
  | _ => []

/-- The queue, and what was pushed to it so far. -/
def logged : System (State T × List T) (Act T) :=
  system.watched [] fun pushed s act _ => pushed ++ pushes s act

/-! ## What the queue promises -/

/-- The objects that `pop` and `try_pop` have returned. -/
def State.handedOver (s : State T) : List T := s.returned.filterMap Prod.snd

/-- An object that is no longer in the buffer and not yet returned. -/
def leaving : List (Layer T) → List T
  | .call c :: _ => if c.pc = .unlocking then c.popped.toList else []
  | _ => []

def State.inHand (s : State T) : List T :=
  match s.owner with
  | some t => leaving (s.layers t)
  | none => []

def Op.isPush : Op T → Bool
  | .push _ => true
  | .pop => false
  | .tryPop => false

/-- A `push` that is about to set the event. -/
def notifying : List (Layer T) → Bool
  | .call c :: _ => c.op.isPush && (c.pc = .unlocking || c.pc = .setting)
  | _ => false

def State.Woken (s : State T) : Prop :=
  s.nonEmpty = true ∨ ∃ t, notifying (s.layers t) = true

/-! ## What each point of an operation implies -/

/-- The operation that a call is of, and what it has read. -/
def Call.Proper (c : Call T) : Prop :=
  match c.pc with
  | .locking => c.popped = none
  | .pushing => c.op.isPush = true ∧ c.popped = none
  | .setting => c.op.isPush = true ∧ c.popped = none
  | .checking => c.op.isPush = false ∧ c.popped = none
  | .taking => c.op.isPush = false ∧ c.popped = none
  | .popping => c.op.isPush = false ∧ c.popped ≠ none
  | .signalling => c.op = .pop ∧ c.popped = none
  | .waiting => c.op = .pop ∧ c.popped = none
  | .unlocking => (c.op.isPush = true → c.popped = none) ∧ (c.op = .pop → c.popped ≠ none)

/-- What the owner of the mutex has seen of the buffer. -/
def Call.Sees (c : Call T) (buffer : List T) : Prop :=
  match c.pc with
  | .taking => buffer ≠ []
  | .popping => buffer.head? = c.popped
  | _ => True

structure Log (s : State T) (pushed : List T) : Prop extends Inv s where
  proper : ∀ t c, Layer.call c ∈ s.layers t → c.Proper
  sees : ∀ t c below, s.layers t = .call c :: below → c.Sees s.buffer
  order : pushed = s.handedOver ++ s.inHand ++ s.buffer
  woken : s.buffer ≠ [] → s.Woken

theorem initial_log : Log (initial : State T) [] where
  lock _ _ hlock := nomatch hlock
  owner t := by simp [initial, State.owner, inside]
  below _ _ hc := nomatch hc
  exclusive _ ha := nomatch ha
  proper _ _ hc := nomatch hc
  sees _ _ _ hlayer := nomatch hlayer
  order := rfl
  woken hbuffer := absurd rfl hbuffer

section
variable {s s' : State T} {pushed pushed' : List T} {t : ℕ} {k below : List (Layer T)} {c : Call T}

theorem sees_of_outside (h : c.pc.inside = false) (buffer : List T) : c.Sees buffer := by
  unfold Call.Sees
  cases hpc : c.pc
  all_goals first | trivial | (rw [hpc] at h; cases h)

theorem Inv.inHand_of_inside (h : Inv s) (ht : inside (s.layers t) = true) :
    s.inHand = leaving (s.layers t) := by
  rw [State.inHand, (h.owner t).mpr ht]

theorem inHand_of_free (h : s.lock = none) : s.inHand = [] := by
  rw [State.inHand, State.owner, h]
  rfl

/-- The hands of the others are not touched. -/
theorem Inv.inHand_stay (h : Inv s) (hlayers : s'.layers = update s.layers t k)
    (hlock : s'.lock = s.lock) (ht : inside (s.layers t) = false) : s'.inHand = s.inHand := by
  have howner : s'.owner = s.owner := by rw [State.owner, State.owner, hlock]
  rw [State.inHand, State.inHand, howner]
  rcases hown : s.owner with _ | u
  · rfl
  · have hu : u ≠ t := by
      rintro rfl
      rw [(h.owner u).mp hown] at ht
      cases ht
    show leaving (s'.layers u) = leaving (s.layers u)
    rw [hlayers, update_of_ne hu]

/-! ## Every step -/

/-- **A thread moves**, and is the owner of the mutex if it changes the buffer. -/
theorem Log.move (h : Log s pushed) (hinv : Inv s') (hlayers : s'.layers = update s.layers t k)
    (hproper : ∀ c, Layer.call c ∈ k → c.Proper)
    (hsees : ∀ c below, k = .call c :: below → c.Sees s'.buffer)
    (hbuffer : s'.buffer = s.buffer ∨ inside (s.layers t) = true)
    (horder : pushed' = s'.handedOver ++ s'.inHand ++ s'.buffer)
    (hevent : s.nonEmpty = true → s'.nonEmpty = true)
    (hfilled : s'.buffer ≠ [] → s.buffer ≠ [] ∨ notifying k = true)
    (hwoken : notifying (s.layers t) = true → s'.nonEmpty = true ∨ notifying k = true) :
    Log s' pushed' := by
  refine ⟨hinv, ?_, ?_, horder, ?_⟩
  · intro u c hc
    rw [hlayers] at hc
    by_cases hu : u = t
    · rw [hu, update_self] at hc
      exact hproper c hc
    · rw [update_of_ne hu] at hc
      exact h.proper u c hc
  · intro u c below hlayer
    rw [hlayers] at hlayer
    by_cases hu : u = t
    · rw [hu, update_self] at hlayer
      exact hsees c below hlayer
    · rw [update_of_ne hu] at hlayer
      rcases hbuffer with hbuffer | ht
      · rw [hbuffer]
        exact h.sees u c below hlayer
      · -- two threads are not inside at once
        apply sees_of_outside
        by_contra hin
        have hu' : inside (s.layers u) = true := by
          rw [hlayer, inside_call]
          simpa using hin
        exact h.alone ht u hu ((h.owner u).mpr hu')
  · intro hbuffer
    have hnow : notifying k = true → s'.Woken := by
      intro hk
      refine Or.inr ⟨t, ?_⟩
      rw [hlayers, update_self]
      exact hk
    rcases hfilled hbuffer with hbuffer | hk
    · rcases h.woken hbuffer with hset | ⟨u, hu⟩
      · exact Or.inl (hevent hset)
      · by_cases hut : u = t
        · rw [hut] at hu
          exact (hwoken hu).elim Or.inl hnow
        · refine Or.inr ⟨u, ?_⟩
          rw [hlayers, update_of_ne hut]
          exact hu
    · exact hnow hk

theorem Log.proper_cons (h : Log s pushed) (hlayer : s.layers t = .call c :: below) {c' : Call T}
    (hc' : c'.Proper) : ∀ d, Layer.call d ∈ (.call c' :: below) → d.Proper := by
  intro d hd
  rcases List.mem_cons.mp hd with hd | hd
  · cases hd
    exact hc'
  · exact h.proper t d (hlayer ▸ List.mem_cons_of_mem _ hd)

/-- What lies below a call has neither read an object nor anything to notify. -/
theorem leaving_of_below (h : Below k) : leaving k = [] := by
  rcases k with _ | ⟨_ | _, k⟩
  · rfl
  · rename_i c
    rw [leaving, h c List.mem_cons_self]
    rfl
  · rfl

theorem notifying_of_below (h : Below k) : notifying k = false := by
  rcases k with _ | ⟨_ | _, k⟩
  · rfl
  · rename_i c
    rw [notifying, h c List.mem_cons_self]
    simp
  · rfl

theorem sees_of_below (hbelow : Below below) (buffer : List T) :
    ∀ d rest, below = .call d :: rest → d.Sees buffer := by
  rintro d rest rfl
  apply sees_of_outside
  rw [hbelow d List.mem_cons_self]
  rfl

/-- The objects are where they were. -/
theorem Log.order_stay (h : Log s pushed) (hreturned : s'.returned = s.returned)
    (hinHand : s'.inHand = s.inHand) (hbuffer : s'.buffer = s.buffer) :
    pushed ++ [] = s'.handedOver ++ s'.inHand ++ s'.buffer := by
  rw [List.append_nil, State.handedOver, hreturned, hinHand, hbuffer]
  exact h.order

theorem pushes_go (hlayer : s.layers t = .call c :: below) (hpc : c.pc ≠ .pushing) :
    pushes s (.go t) = [] := by
  simp only [pushes, hlayer]
  split
  · rename_i obj hpushing _
    exact absurd hpushing hpc
  · rfl

theorem pushes_go_push (hlayer : s.layers t = .call c :: below) (hpc : c.pc = .pushing) {obj : T}
    (hop : c.op = .push obj) : pushes s (.go t) = [obj] := by
  simp only [pushes, hlayer, hpc, hop]

/-- The operation goes on inside, and has nothing in hand before or after. -/
theorem Log.inside_step (h : Log s pushed) (hinv : Inv s') (hlayer : s.layers t = .call c :: below)
    {c' : Call T} (hlayers : s'.layers = update s.layers t (.call c' :: below))
    (hin : c.pc.inside = true) (hin' : c'.pc.inside = true)
    (hhand : leaving (.call c :: below) = []) (hhand' : leaving (.call c' :: below) = []) :
    s'.inHand = s.inHand := by
  have ht : inside (s.layers t) = true := by
    rw [hlayer]
    exact hin
  have ht' : s'.layers t = .call c' :: below := by rw [hlayers, update_self]
  rw [h.inHand_of_inside ht, hlayer, hhand, hinv.inHand_of_inside (t := t), ht', hhand']
  rw [ht']
  exact hin'

/-- **The operation looks** at the buffer, and has nothing in hand yet. -/
theorem Log.look (h : Log s pushed) (hinv : Inv s') (hlayer : s.layers t = .call c :: below)
    {c' : Call T} (hlayers : s'.layers = update s.layers t (.call c' :: below))
    (hreturned : s'.returned = s.returned) (hbuffer : s'.buffer = s.buffer)
    (hevent : s'.nonEmpty = s.nonEmpty) (hin : c.pc.inside = true) (hin' : c'.pc.inside = true)
    (hpc : c.pc ≠ .unlocking) (hproper : c'.Proper) (hsees : c'.Sees s.buffer)
    (hhand : leaving (.call c' :: below) = []) : Log s' (pushed ++ []) := by
  refine h.move hinv hlayers (h.proper_cons hlayer hproper) ?_ (Or.inl hbuffer)
    (h.order_stay hreturned ?_ hbuffer) (fun hset => hevent.trans hset) ?_ ?_
  · rintro d rest hd
    cases hd
    rw [hbuffer]
    exact hsees
  · exact h.inside_step hinv hlayer hlayers hin hin' (if_neg hpc) hhand
  · rw [hbuffer]
    exact Or.inl
  · intro hnotify
    have hsetting : c.pc ≠ .setting := by
      intro hsetting
      rw [hsetting] at hin
      cases hin
    rw [hlayer] at hnotify
    simp [notifying, hpc, hsetting] at hnotify

theorem goCall_log (h : Log s pushed) (hlayer : s.layers t = .call c :: below)
    (hstep : goCall s t c below = some s') : Log s' (pushed ++ pushes s (.go t)) := by
  have hinv := goCall_inv h.toInv hlayer hstep
  have hbelow := h.below_of hlayer
  have hproper : c.Proper := h.proper t c (hlayer ▸ List.mem_cons_self)
  have hsees := h.sees t c below hlayer
  have hin : ∀ {pc}, c.pc = pc → pc.inside = true → inside (s.layers t) = true := by
    intro pc hpc hpcin
    rw [hlayer, inside, hpc]
    exact hpcin
  have hquiet : c.pc ≠ .unlocking → c.pc ≠ .setting → ¬ notifying (s.layers t) = true := by
    intro hunlocking hsetting
    rw [hlayer]
    simp [notifying, hunlocking, hsetting]
  have hempty : c.pc ≠ .unlocking → leaving (.call c :: below) = [] := fun hunlocking =>
    if_neg hunlocking
  rw [goCall] at hstep
  cases hpc : c.pc with
  | locking =>
      rw [hpc] at hstep
      obtain ⟨s₁, hacq, rfl⟩ := Option.map_eq_some_iff.mp hstep
      have hout : inside (s.layers t) = false := by
        rw [hlayer, inside, hpc]
        rfl
      obtain ⟨hnone, rfl⟩ := h.acquire hout hacq
      simp only [Call.Proper, hpc] at hproper
      rw [pushes_go hlayer (by simp [hpc])]
      refine h.move hinv rfl (h.proper_cons hlayer ?_) ?_ (Or.inl rfl) (h.order_stay rfl ?_ rfl) id
        Or.inl (fun hn => absurd hn (hquiet (by simp [hpc]) (by simp [hpc])))
      · unfold Call.Proper Call.afterLock
        cases hop : c.op <;> simp [Op.isPush, hproper]
      · rintro d rest hd
        cases hd
        unfold Call.Sees Call.afterLock
        cases c.op <;> trivial
      · rw [inHand_of_free hnone]
        show leaving (update s.layers t _ t) = []
        rw [update_self, leaving]
        apply if_neg
        unfold Call.afterLock
        cases c.op <;> simp
  | pushing =>
      simp only [Call.Proper, hpc] at hproper
      rw [hpc] at hstep
      rcases hop : c.op with obj | _ | _
      · simp only [hop] at hstep
        rw [pushes_go_push hlayer hpc hop]
        obtain rfl := Option.some.inj hstep
        refine h.move hinv rfl (h.proper_cons hlayer ?_) ?_ (Or.inr (hin hpc rfl)) ?_ id
          (fun _ => Or.inr ?_) (fun hn => absurd hn (hquiet (by simp [hpc]) (by simp [hpc])))
        · exact ⟨fun _ => hproper.2, fun hpop => by cases hpop⟩
        · rintro d rest hd
          cases hd
          trivial
        · have hhand := h.inside_step hinv hlayer rfl (by rw [hpc]; rfl) rfl
            (hempty (by simp [hpc])) (by rw [leaving, if_pos rfl, hproper.2]; rfl)
          rw [hhand, h.order]
          exact List.append_assoc _ _ _
        · simp [notifying, Op.isPush]
      · simp only [hop] at hstep
        cases hstep
      · simp only [hop] at hstep
        cases hstep
  | checking =>
      simp only [Call.Proper, hpc] at hproper
      rw [hpc] at hstep
      rw [pushes_go hlayer (by simp [hpc])]
      have hlook : ∀ {c' : Call T}, s' = (s.access t).setLayers t (.call c' :: below) →
          c'.pc.inside = true → c'.Proper → c'.Sees s.buffer →
          leaving (.call c' :: below) = [] → Log s' (pushed ++ []) := by
        rintro c' rfl hin' hproper' hsees' hhand'
        exact h.look hinv hlayer rfl rfl rfl rfl (by rw [hpc]; rfl) hin' (by simp [hpc]) hproper'
          hsees' hhand'
      rcases hbuffer : s.buffer with _ | ⟨x, rest⟩
      · rcases hop : c.op with obj | _ | _
        · rw [hop] at hproper
          cases hproper.1
        · simp only [hbuffer, hop, List.isEmpty_nil, if_true, Option.some.injEq] at hstep
          exact hlook hstep.symm rfl ⟨rfl, hproper.2⟩ trivial rfl
        · simp only [hbuffer, hop, List.isEmpty_nil, if_true, Option.some.injEq] at hstep
          refine hlook hstep.symm rfl ⟨fun _ => hproper.2, fun hpop => by cases hpop⟩ trivial ?_
          rw [leaving, if_pos rfl, hproper.2]
          rfl
      · simp only [hbuffer, List.isEmpty_cons, Bool.false_eq_true, if_false,
          Option.some.injEq] at hstep
        refine hlook hstep.symm rfl hproper ?_ rfl
        show s.buffer ≠ []
        simp [hbuffer]
  | taking =>
      simp only [Call.Proper, hpc] at hproper
      rw [hpc] at hstep
      rw [pushes_go hlayer (by simp [hpc])]
      obtain ⟨x, hx, heq⟩ := Option.bind_eq_some_iff.mp hstep
      obtain rfl := Option.some.inj heq
      exact h.look hinv hlayer rfl rfl rfl rfl (by rw [hpc]; rfl) rfl (by simp [hpc])
        ⟨hproper.1, Option.some_ne_none x⟩ hx rfl
  | popping =>
      simp only [Call.Proper, hpc] at hproper
      simp only [Call.Sees, hpc] at hsees
      rw [hpc] at hstep
      rw [pushes_go hlayer (by simp [hpc])]
      have hstate := Option.some.inj hstep
      have hlayers :
          s'.layers = update s.layers t (.call { c with pc := .unlocking } :: below) := by
        rw [← hstate]
        rfl
      have hbuffer' : s'.buffer = s.buffer.tail := by rw [← hstate]; rfl
      have hreturned : s'.returned = s.returned := by rw [← hstate]; rfl
      have hevent : s'.nonEmpty = s.nonEmpty := by rw [← hstate]; rfl
      have ht := hin hpc rfl
      have ht' : inside (s'.layers t) = true := by
        rw [hlayers, update_self]
        rfl
      obtain ⟨x, hx⟩ := Option.ne_none_iff_exists'.mp hproper.2
      rw [hx] at hsees
      obtain ⟨rest, hbuffer⟩ := List.head?_eq_some_iff.mp hsees
      have hhand : s.inHand = [] := by
        rw [h.inHand_of_inside ht, hlayer, hempty (by simp [hpc])]
      have hhand' : s'.inHand = [x] := by
        rw [hinv.inHand_of_inside ht', hlayers, update_self, leaving, if_pos rfl, hx]
        rfl
      refine h.move hinv hlayers (h.proper_cons hlayer ?_) ?_ (Or.inr ht) ?_
        (fun hset => hevent.trans hset) ?_
        (fun hn => absurd hn (hquiet (by simp [hpc]) (by simp [hpc])))
      · refine ⟨fun hpush => ?_, fun _ => hproper.2⟩
        rw [hproper.1] at hpush
        cases hpush
      · rintro d rest' hd
        cases hd
        trivial
      · rw [List.append_nil, h.order, State.handedOver, State.handedOver, hreturned, hhand, hhand',
          hbuffer', hbuffer]
        simp
      · intro _
        apply Or.inl
        simp [hbuffer]
  | signalling =>
      simp only [Call.Proper, hpc] at hproper
      have ht := hin hpc rfl
      simp only [hpc, if_pos ((h.owner t).mpr ht), h.releaseMutex ht] at hstep
      rw [pushes_go hlayer (by simp [hpc])]
      obtain rfl := Option.some.inj hstep
      refine h.move hinv rfl (h.proper_cons hlayer hproper) ?_ (Or.inl rfl)
        (h.order_stay rfl ?_ rfl) id Or.inl
        (fun hn => absurd hn (hquiet (by simp [hpc]) (by simp [hpc])))
      · rintro d rest hd
        cases hd
        trivial
      · rw [h.inHand_of_inside ht, hlayer, hempty (by simp [hpc])]
        exact inHand_of_free rfl
  | waiting =>
      simp only [Call.Proper, hpc] at hproper
      simp only [hpc] at hstep
      obtain ⟨-, heq⟩ := Option.ite_none_right_eq_some.mp hstep
      obtain rfl := Option.some.inj heq
      rw [pushes_go hlayer (by simp [hpc])]
      have hout : inside (s.layers t) = false := by
        rw [hlayer, inside, hpc]
        rfl
      refine h.move hinv rfl (h.proper_cons hlayer hproper.2) ?_ (Or.inl rfl)
        (h.order_stay rfl (h.inHand_stay rfl rfl hout) rfl) id Or.inl
        (fun hn => absurd hn (hquiet (by simp [hpc]) (by simp [hpc])))
      rintro d rest hd
      cases hd
      trivial
  | unlocking =>
      simp only [Call.Proper, hpc] at hproper
      have ht := hin hpc rfl
      have hhand := h.inHand_of_inside ht
      rw [hlayer, leaving, if_pos hpc] at hhand
      simp only [hpc, h.releaseMutex ht] at hstep
      rw [pushes_go hlayer (by simp [hpc])]
      have hreturn : c.op.isPush = false →
          s' = { ({ s with lock := none } : State T).setLayers t below with
            returned := s.returned ++ [(t, c.popped)] } → Log s' (pushed ++ []) := by
        rintro hop rfl
        refine h.move hinv rfl ?_ (sees_of_below hbelow _) (Or.inl rfl) ?_ id Or.inl ?_
        · exact fun d hd => h.proper t d (hlayer ▸ List.mem_cons_of_mem _ hd)
        · rw [List.append_nil, h.order, hhand, inHand_of_free rfl]
          cases c.popped <;> simp [State.handedOver, State.setLayers]
        · rw [hlayer]
          simp [notifying, hop]
      rcases hop : c.op with obj | _ | _
      · simp only [hop] at hstep
        obtain rfl := Option.some.inj hstep
        have hnone := hproper.1 (by rw [hop]; rfl)
        refine h.move hinv rfl (h.proper_cons hlayer ⟨rfl, hnone⟩) ?_ (Or.inl rfl)
          (h.order_stay rfl ?_ rfl) id Or.inl (fun _ => Or.inr ?_)
        · rintro d rest hd
          cases hd
          trivial
        · rw [hhand, hnone]
          exact inHand_of_free rfl
        · simp [notifying, Op.isPush]
      · simp only [hop] at hstep
        exact hreturn (by rw [hop]; rfl) (Option.some.inj hstep).symm
      · simp only [hop] at hstep
        exact hreturn (by rw [hop]; rfl) (Option.some.inj hstep).symm
  | setting =>
      rw [hpc] at hstep
      obtain rfl := Option.some.inj hstep
      rw [pushes_go hlayer (by simp [hpc])]
      have hout : inside (s.layers t) = false := by
        rw [hlayer, inside, hpc]
        rfl
      refine h.move hinv rfl ?_ (sees_of_below hbelow _) (Or.inl rfl)
        (h.order_stay rfl (h.inHand_stay rfl rfl hout) rfl) (fun _ => rfl) Or.inl
        (fun _ => Or.inl rfl)
      exact fun d hd => h.proper t d (hlayer ▸ List.mem_cons_of_mem _ hd)

theorem Log.step (h : Log s pushed) {act : Act T} (hok : NoApcInLock s act)
    (hstep : TimerQueue.step s act = some s') : Log s' (pushed ++ pushes s act) := by
  have hinv := h.toInv.step hok hstep
  cases act with
  | call u op alertable =>
      have hcall : ∀ {below : List (Layer T)}, s.layers u = below → leaving below = [] →
          inside below = false → notifying below = false →
          s' = s.setLayers u (.call ⟨op, alertable, .locking, none⟩ :: below) →
          Log s' (pushed ++ []) := by
        rintro below hlayer hhand hout hquiet rfl
        refine h.move hinv rfl ?_ ?_ (Or.inl rfl)
          (h.order_stay rfl (h.inHand_stay rfl rfl (hlayer ▸ hout)) rfl) id Or.inl ?_
        · intro d hd
          rcases List.mem_cons.mp hd with hd | hd
          · cases hd
            rfl
          · exact h.proper u d (hlayer ▸ hd)
        · rintro d rest hd
          cases hd
          trivial
        · rw [hlayer, hquiet]
          exact fun hfalse => absurd hfalse Bool.false_ne_true
      simp only [TimerQueue.step] at hstep
      split at hstep
      · rename_i hlayer
        exact hcall hlayer rfl rfl rfl (Option.some.inj hstep).symm
      · rename_i below hlayer
        exact hcall hlayer rfl rfl rfl (Option.some.inj hstep).symm
      · cases hstep
  | go u =>
      simp only [TimerQueue.step] at hstep
      split at hstep
      · rename_i c below hlayer
        exact goCall_log h hlayer hstep
      · cases hstep
  | apc u =>
      simp only [TimerQueue.step] at hstep
      split at hstep
      · rename_i c below hlayer
        obtain ⟨⟨-, hpc⟩, heq⟩ := Option.ite_none_right_eq_some.mp hstep
        have hwaiting : c.pc = .waiting := hpc.resolve_left (hok c below hlayer)
        obtain rfl := Option.some.inj heq
        have hout : inside (s.layers u) = false := by
          rw [hlayer, inside_call, hwaiting]
          rfl
        refine h.move hinv rfl ?_ (fun _ _ hd => by cases hd) (Or.inl rfl)
          (h.order_stay rfl (h.inHand_stay rfl rfl hout) rfl) id Or.inl ?_
        · intro d hd
          rcases List.mem_cons.mp hd with hd | hd
          · cases hd
          · exact h.proper u d (hlayer ▸ hd)
        · rw [hlayer]
          simp [notifying, hwaiting]
      · cases hstep
  | apcReturn u =>
      simp only [TimerQueue.step] at hstep
      split at hstep
      · rename_i c below hlayer
        have hbelow := h.below_of hlayer
        have hwaiting : c.pc = .waiting := hbelow c List.mem_cons_self
        have hproper := h.proper u c (hlayer ▸ List.mem_cons_of_mem _ List.mem_cons_self)
        simp only [Call.Proper, hwaiting] at hproper
        obtain rfl := Option.some.inj hstep
        have hlocking : c.afterWait = .locking := by
          rw [Call.afterWait, hwaiting]
          rfl
        refine h.move hinv rfl ?_ ?_ (Or.inl rfl)
          (h.order_stay rfl (h.inHand_stay rfl rfl (hlayer ▸ rfl)) rfl) id Or.inl ?_
        · intro d hd
          rcases List.mem_cons.mp hd with hd | hd
          · cases hd
            simp only [Call.Proper, hlocking]
            exact hproper.2
          · exact h.proper u d
              (hlayer ▸ List.mem_cons_of_mem _ (List.mem_cons_of_mem _ hd))
        · rintro d rest hd
          cases hd
          simp only [Call.Sees, hlocking]
        · rw [hlayer]
          exact fun hfalse => absurd hfalse Bool.false_ne_true
      · cases hstep

/-! ## No thread waits for ever -/

/-- The owner of the mutex goes on. -/
theorem Log.go_of_inside (h : Log s pushed) (ht : inside (s.layers t) = true) :
    ∃ u, TimerQueue.step s (.go t) = some u := by
  rcases hlayer : s.layers t with _ | ⟨c | _, below⟩
  · rw [hlayer] at ht
    cases ht
  · have hproper := h.proper t c (hlayer ▸ List.mem_cons_self)
    have hsees := h.sees t c below hlayer
    rw [hlayer, inside_call] at ht
    simp only [TimerQueue.step, hlayer, goCall]
    cases hpc : c.pc with
    | pushing =>
        simp only [Call.Proper, hpc] at hproper
        rcases hop : c.op with obj | _ | _
        · exact ⟨_, rfl⟩
        · rw [hop] at hproper
          cases hproper.1
        · rw [hop] at hproper
          cases hproper.1
    | checking => exact ⟨_, rfl⟩
    | taking =>
        simp only [Call.Sees, hpc] at hsees
        obtain ⟨x, rest, hbuffer⟩ := List.exists_cons_of_ne_nil hsees
        rw [hbuffer]
        exact ⟨_, rfl⟩
    | popping => exact ⟨_, rfl⟩
    | signalling =>
        dsimp only
        split
        · exact ⟨_, rfl⟩
        · exact ⟨_, rfl⟩
    | unlocking =>
        rcases c.op with obj | _ | _
        · exact ⟨_, rfl⟩
        · exact ⟨_, rfl⟩
        · exact ⟨_, rfl⟩
    | locking | waiting | setting =>
        rw [hpc] at ht
        cases ht
  · rw [hlayer] at ht
    cases ht

/-- A `push` that has filled the buffer goes on to set the event. -/
theorem Log.go_of_notifying (h : Log s pushed) (ht : notifying (s.layers t) = true) :
    ∃ u, TimerQueue.step s (.go t) = some u := by
  rcases hlayer : s.layers t with _ | ⟨c | _, below⟩
  · rw [hlayer] at ht
    cases ht
  · rw [hlayer] at ht
    simp only [notifying, Bool.and_eq_true, Bool.or_eq_true, decide_eq_true_eq] at ht
    rcases ht.2 with hpc | hpc
    · apply h.go_of_inside
      rw [hlayer, inside_call, hpc]
      rfl
    · simp only [TimerQueue.step, hlayer, goCall, hpc]
      exact ⟨_, rfl⟩
  · rw [hlayer] at ht
    cases ht

/-- **A call goes on**, or the owner of the mutex does, or it waits for the first object. -/
theorem Log.progress (h : Log s pushed) (hlayer : s.layers t = .call c :: below) :
    (∃ u, TimerQueue.step s (.go t) = some u) ∨
      (∃ o u, s.owner = some o ∧ TimerQueue.step s (.go o) = some u) ∨
      (c.op = .pop ∧ s.nonEmpty = false ∧
        (s.buffer ≠ [] → ∃ o u, notifying (s.layers o) = true ∧
          TimerQueue.step s (.go o) = some u)) := by
  have hproper := h.proper t c (hlayer ▸ List.mem_cons_self)
  by_cases hin : c.pc.inside = true
  · refine Or.inl (h.go_of_inside ?_)
    rw [hlayer]
    exact hin
  · cases hpc : c.pc with
    | locking =>
        rcases hlock : s.lock with _ | ⟨o, n⟩
        · left
          simp only [TimerQueue.step, hlayer, goCall, hpc, State.acquire, hlock]
          exact ⟨_, rfl⟩
        · right
          left
          have howner : s.owner = some o := by
            rw [State.owner, hlock]
            rfl
          obtain ⟨u, hu⟩ := h.go_of_inside ((h.owner o).mp howner)
          exact ⟨o, u, howner, hu⟩
    | waiting =>
        simp only [Call.Proper, hpc] at hproper
        rcases hset : s.nonEmpty with _ | _
        · right
          right
          refine ⟨hproper.1, rfl, fun hbuffer => ?_⟩
          rcases h.woken hbuffer with hset' | ⟨o, ho⟩
          · rw [hset] at hset'
            cases hset'
          · obtain ⟨u, hu⟩ := h.go_of_notifying ho
            exact ⟨o, u, ho, hu⟩
        · left
          simp only [TimerQueue.step, hlayer, goCall, hpc, hset, if_true]
          exact ⟨_, rfl⟩
    | setting =>
        left
        simp only [TimerQueue.step, hlayer, goCall, hpc]
        exact ⟨_, rfl⟩
    | pushing | checking | taking | popping | signalling | unlocking =>
        rw [hpc] at hin
        exact absurd rfl hin

/-! ## The event stays set -/

@[simp] theorem access_nonEmpty : (s.access t).nonEmpty = s.nonEmpty := rfl

@[simp] theorem setLayers_nonEmpty : (s.setLayers t k).nonEmpty = s.nonEmpty := rfl

@[simp] theorem releaseMutex_nonEmpty : (s.releaseMutex t).nonEmpty = s.nonEmpty := by
  unfold State.releaseMutex
  split
  · rfl
  · split
    · rfl
    · rfl

theorem acquire_nonEmpty (h : s.acquire t = some s') : s'.nonEmpty = s.nonEmpty := by
  unfold State.acquire at h
  split at h
  · rw [← Option.some.inj h]
  · obtain ⟨-, heq⟩ := Option.ite_none_right_eq_some.mp h
    rw [← Option.some.inj heq]

theorem goCall_nonEmpty (h : goCall s t c below = some s') (hset : s.nonEmpty = true) :
    s'.nonEmpty = true := by
  rw [goCall] at h
  cases hpc : c.pc with
  | locking =>
      rw [hpc] at h
      obtain ⟨s₁, hacq, rfl⟩ := Option.map_eq_some_iff.mp h
      exact (acquire_nonEmpty hacq).trans hset
  | pushing =>
      rw [hpc] at h
      cases hop : c.op with
      | push obj =>
          simp only [hop] at h
          rw [← Option.some.inj h]
          exact hset
      | pop | tryPop =>
          simp only [hop] at h
          cases h
  | checking | popping =>
      rw [hpc] at h
      rw [← Option.some.inj h]
      exact hset
  | taking =>
      rw [hpc] at h
      obtain ⟨x, -, heq⟩ := Option.bind_eq_some_iff.mp h
      rw [← Option.some.inj heq]
      exact hset
  | signalling =>
      simp only [hpc] at h
      split at h
      · rw [← Option.some.inj h, setLayers_nonEmpty, releaseMutex_nonEmpty]
        exact hset
      · rw [← Option.some.inj h]
        exact hset
  | waiting =>
      simp only [hpc] at h
      obtain ⟨-, heq⟩ := Option.ite_none_right_eq_some.mp h
      rw [← Option.some.inj heq]
      exact hset
  | unlocking =>
      simp only [hpc] at h
      cases hop : c.op with
      | push obj | pop | tryPop =>
          simp only [hop] at h
          rw [← Option.some.inj h]
          exact releaseMutex_nonEmpty.trans hset
  | setting =>
      rw [hpc] at h
      rw [← Option.some.inj h]

theorem step_nonEmpty {act : Act T} (h : step s act = some s') (hset : s.nonEmpty = true) :
    s'.nonEmpty = true := by
  cases act with
  | call u op alertable =>
      simp only [step] at h
      split at h
      · rw [← Option.some.inj h]
        exact hset
      · rw [← Option.some.inj h]
        exact hset
      · cases h
  | go u =>
      simp only [step] at h
      split at h
      · exact goCall_nonEmpty h hset
      · cases h
  | apc u =>
      simp only [step] at h
      split at h
      · obtain ⟨-, heq⟩ := Option.ite_none_right_eq_some.mp h
        rw [← Option.some.inj heq]
        exact hset
      · cases h
  | apcReturn u =>
      simp only [step] at h
      split at h
      · rw [← Option.some.inj h]
        exact hset
      · cases h

/-- Nothing resets the event. -/
theorem leads_nonEmpty (h : system.Leads s s') (hset : s.nonEmpty = true) : s'.nonEmpty = true := by
  induction h with
  | refl => exact hset
  | tail _ hstep ih =>
      obtain ⟨act, hact⟩ := hstep
      exact step_nonEmpty hact ih

end

/-- **First in, first out, and nothing is lost.** For any threads, operations and APCs, as long as
no APC runs in a wait for the mutex: what was pushed is what was returned, then an object that one
thread has in hand, then the buffer; `front` is called on a buffer that is not empty, and `pop`
returns an object; and a call goes on at once, or after the owner of the mutex, or it is a `pop`
that waits for the very first object, or for the event that its `push` is about to set. Once set,
the event stays set, so no `pop` waits again. -/
theorem handed_over_in_order (s : State T) (pushed : List T)
    (h : logged.ReachableUnder (fun x => NoApcInLock x.1) (s, pushed)) :
    pushed = s.handedOver ++ s.inHand ++ s.buffer ∧
      (∀ t c below, s.layers t = .call c :: below →
        (c.pc = .taking → s.buffer ≠ []) ∧
        (c.op = .pop → c.pc = .unlocking → c.popped ≠ none) ∧
        ((∃ u, step s (.go t) = some u) ∨
          (∃ o u, s.owner = some o ∧ step s (.go o) = some u) ∨
          (c.op = .pop ∧ s.nonEmpty = false ∧
            (s.buffer ≠ [] → ∃ o u, notifying (s.layers o) = true ∧
              step s (.go o) = some u)))) ∧
      (s.nonEmpty = true → ∀ u, system.Leads s u → u.nonEmpty = true) := by
  have hlog : Log s pushed := by
    apply h.watched_invariant (I := Log)
    · rintro _ rfl
      exact initial_log
    · exact fun _ _ _ _ hlog hok hstep => hlog.step hok hstep
  refine ⟨hlog.order, fun t c below hlayer => ⟨fun hpc => ?_, fun hop hpc => ?_, ?_⟩, ?_⟩
  · have hsees := hlog.sees t c below hlayer
    simp only [Call.Sees, hpc] at hsees
    exact hsees
  · have hproper := hlog.proper t c (hlayer ▸ List.mem_cons_self)
    simp only [Call.Proper, hpc] at hproper
    exact hproper.2 hop
  · exact hlog.progress hlayer
  · exact fun hset u hleads => leads_nonEmpty hleads hset

/-- The worker waits for the first object; two are pushed, and it takes the first. -/
def pushedWhileWaiting : List (Act ℕ) :=
  [.call 0 .pop false, .go 0, .go 0, .go 0, .call 1 (.push 5) false, .go 1, .go 1, .go 1, .go 1,
    .call 1 (.push 6) false, .go 1, .go 1, .go 1, .go 1, .go 0, .go 0, .go 0, .go 0, .go 0]

theorem handed_over_in_order_pushed_while_waiting :
    ∃ s : State ℕ, logged.ReachableUnder (fun x => NoApcInLock x.1) (s, [5, 6]) ∧
      s.inHand = [5] ∧ s.buffer = [6] ∧ [5, 6] = s.handedOver ++ s.inHand ++ s.buffer := by
  have hm : logged.Meets (fun x => NoApcInLock x.1) (initial, []) pushedWhileWaiting :=
    ⟨trivial, _, rfl, trivial, _, rfl, trivial, _, rfl, trivial, _, rfl, trivial, _, rfl,
      trivial, _, rfl, trivial, _, rfl, trivial, _, rfl, trivial, _, rfl, trivial, _, rfl,
      trivial, _, rfl, trivial, _, rfl, trivial, _, rfl, trivial, _, rfl, trivial, _, rfl,
      trivial, _, rfl, trivial, _, rfl, trivial, _, rfl, trivial, _, rfl, trivial⟩
  have h0 : (logged (T := ℕ)).ReachableUnder (fun x => NoApcInLock x.1) (initial, []) :=
    .init ⟨rfl, rfl⟩
  have hs := h0.run hm rfl
  exact ⟨_, hs, rfl, rfl, (handed_over_in_order _ _ hs).1⟩

end Coroutines.TimerQueue
