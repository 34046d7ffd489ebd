import Coroutines.AwaitableTimer

/-!
# Moving an awaitable timer

A move carries the descriptor along with the parts of the timeout, but not the io context, and
the interest list goes on pointing to the slot of the object that was constructed with the
descriptor. What that leads to shows when the descriptor fires.
-/

namespace Coroutines.AwaitableTimer

open Transition System Function

/-- Who owns a descriptor has the io context that it is registered with, and the event of a
descriptor resumes the coroutine that last awaited its owner. -/
structure State.Sound (s : State) : Prop where
  context : ∀ a x fd, s.objects a = some x → x.fd = some fd →
    ∃ ioc, x.ioc = some ioc ∧ s.tables ioc fd ≠ none
  resumes : ∀ ioc fd t, step s (.event ioc fd) = some t →
    (∃ a x, s.objects a = some x ∧ x.fd = some fd) ∧
    ∀ a x, s.objects a = some x → x.fd = some fd →
      ∃ c, s.lastAwaiter a = some c ∧ t.resumed = s.resumed ++ [some c]

/-- No object takes over a descriptor, unless it is assigned one that cannot fire and has the
same io context. -/
def Unmoved (s : State) : Act → Prop
  | .moveConstruct _ src => ∀ x, s.objects src = some x → x.fd = none
  | .moveAssign dst src => dst = src ∨
      ∀ d x fd, s.objects dst = some d → s.objects src = some x → x.fd = some fd →
        d.ioc = x.ioc ∧ s.timeouts fd ≤ 0
  | _ => True

/-- A timer is moved and then awaited, and it fires. -/
theorem not_sound_after_move : ¬ ∀ s, system.Reachable s → s.Sound := by
  intro h
  have hr : system.Reachable initial := .init rfl
  have hs := h _ (hr.run [.construct 0 3 1 (some 4) true, .construct 1 3 1 (some 5) true,
    .moveAssign 1 0, .await 1 7, .expire 4] rfl)
  obtain ⟨c, -, hresumed⟩ := (hs.resumes 3 4 _ rfl).2 1 _ rfl rfl
  cases hresumed

/-! ## The interest lists -/

/-- Every owner is registered with its io context, for its own slot if the descriptor can fire,
and nothing else is registered; a descriptor that is set was awaited. -/
structure Attached (s : State) : Prop where
  registered : ∀ a x fd, s.objects a = some x → x.fd = some fd →
    ∃ ioc e, x.ioc = some ioc ∧ s.tables ioc fd = some e ∧ (e.data = a ∨ s.timeouts fd ≤ 0)
  entries : ∀ ioc fd e, s.tables ioc fd = some e → e.events = { input := true } ∧
    ∃ a x, s.objects a = some x ∧ x.fd = some fd ∧ x.ioc = some ioc
  awaited : ∀ a x fd, s.objects a = some x → x.fd = some fd → s.timers fd ≠ some .disarmed →
    0 < s.timeouts fd ∧ ∃ c, s.lastAwaiter a = some c

section
variable {s s' : State}

theorem close_timeouts (s : State) (d : Object) : (s.close d).timeouts = s.timeouts := by
  rw [State.close]
  split
  · rfl
  · rfl

theorem close_of_ne (s : State) {d : Object} {fd : ℕ} (h : d.fd ≠ some fd) :
    (s.close d).timers fd = s.timers fd ∧ ∀ ioc, (s.close d).tables ioc fd = s.tables ioc fd := by
  rw [State.close]
  split
  · exact ⟨rfl, fun _ => rfl⟩
  · rename_i k hk
    have hne : fd ≠ k := by
      rintro rfl
      exact h hk
    exact ⟨update_of_ne hne _ _, fun ioc => update_of_ne hne _ _⟩

theorem close_entry {d : Object} {ioc : ℤ} {fd : ℕ} {e : Epoll.Entry ℕ}
    (h : (s.close d).tables ioc fd = some e) : d.fd ≠ some fd ∧ s.tables ioc fd = some e := by
  have hne : d.fd ≠ some fd := by
    intro hfd
    rw [State.close, hfd] at h
    change update (s.tables ioc) fd none fd = some e at h
    rw [update_self] at h
    cases h
  rw [(close_of_ne s hne).2] at h
  exact ⟨hne, h⟩

/-- A step that registers nothing: descriptors keep their owners and entries, or lose both, and
only what cannot fire changes hands. -/
theorem Attached.carry (h : Attached s)
    (howner : ∀ a x fd, s'.objects a = some x → x.fd = some fd → ∃ b y, s.objects b = some y ∧
      y.fd = some fd ∧ x.ioc = y.ioc ∧ (a = b ∨ s.timeouts fd ≤ 0) ∧
      s'.timeouts fd = s.timeouts fd ∧ ∀ ioc, s'.tables ioc fd = s.tables ioc fd)
    (hentry : ∀ ioc fd e, s'.tables ioc fd = some e → s.tables ioc fd = some e ∧
      ∀ b y, s.objects b = some y → y.fd = some fd →
        ∃ a x, s'.objects a = some x ∧ x.fd = some fd ∧ x.ioc = y.ioc)
    (hawaited : ∀ a x fd, s'.objects a = some x → x.fd = some fd →
      s'.timers fd ≠ some .disarmed → 0 < s'.timeouts fd ∧ ∃ c, s'.lastAwaiter a = some c) :
    Attached s' := by
  constructor
  case registered =>
    intro a x fd ha hfd
    obtain ⟨b, y, hb, hy, hioc, hsame, htimeout, htables⟩ := howner a x fd ha hfd
    obtain ⟨ioc, e, hyioc, he, hdata⟩ := h.registered b y fd hb hy
    refine ⟨ioc, e, hioc.trans hyioc, (htables ioc).trans he, ?_⟩
    rw [htimeout]
    rcases hsame with rfl | hnever
    · exact hdata
    · exact Or.inr hnever
  case entries =>
    intro ioc fd e he
    obtain ⟨hold, hcarried⟩ := hentry ioc fd e he
    obtain ⟨hevents, b, y, hb, hy, hyioc⟩ := h.entries ioc fd e hold
    obtain ⟨a, x, ha, hx, hioc⟩ := hcarried b y hb hy
    exact ⟨hevents, a, x, ha, hx, hioc.trans hyioc⟩
  case awaited => exact hawaited

theorem event_of_expired {ioc : ℤ} {fd : ℕ} {e : Epoll.Entry ℕ} (he : s.tables ioc fd = some e)
    (hevents : e.events = { input := true }) (hexpired : s.timers fd = some .expired) :
    step s (.event ioc fd) = some (s.onTimerExpire e.data) := by
  simp [step, Epoll.Table.report, he, hevents, hexpired, Epoll.Events.visible]

theorem Attached.sound (h : Attached s) (howned : Owned s) : s.Sound := by
  constructor
  case context =>
    intro a x fd ha hfd
    obtain ⟨ioc, e, hioc, he, -⟩ := h.registered a x fd ha hfd
    refine ⟨ioc, hioc, ?_⟩
    rw [he]
    exact Option.some_ne_none _
  case resumes =>
    intro ioc fd t hstep
    obtain ⟨e, he, hexpired, rfl⟩ := event_cases hstep
    obtain ⟨-, b, y, hb, hy, hyioc⟩ := h.entries ioc fd e he
    refine ⟨⟨b, y, hb, hy⟩, fun a x ha hfd => ?_⟩
    obtain rfl := howned.unique a b x y fd ha hb hfd hy
    obtain rfl := Option.some.inj (ha.symm.trans hb)
    obtain ⟨hpos, c, hc⟩ := h.awaited a x fd ha hfd (by rw [hexpired]; decide)
    obtain ⟨ioc', e', hioc', he', hdata⟩ := h.registered a x fd ha hfd
    obtain rfl : ioc = ioc' := Option.some.inj (hyioc.symm.trans hioc')
    obtain rfl := Option.some.inj (he.symm.trans he')
    refine ⟨c, hc, ?_⟩
    have hslot : e.data = a := hdata.resolve_right (not_le.mpr hpos)
    have hawaiter : x.awaitingCoro = some c := (howned.fits a x ha).awaiter.trans hc
    rw [State.onTimerExpire, hslot, ha]
    show s.resumed ++ [x.awaitingCoro] = _
    rw [hawaiter]

/-! ## Every step that moves no descriptor -/

theorem Attached.createTimer (h : Attached s) (howned : Owned s) {fd : ℕ}
    (hunused : s.timers fd = none) (timeout : ℤ) : Attached (s.createTimer fd timeout) := by
  have hne := howned.ne_of_unused hunused
  refine h.carry ?_ ?_ ?_
  · intro a x k ha hk
    exact ⟨a, x, ha, hk, rfl, Or.inl rfl, update_of_ne (hne a x k ha hk) _ _, fun _ => rfl⟩
  · exact fun ioc k e he => ⟨he, fun b y hb hy => ⟨b, y, hb, hy, rfl⟩⟩
  · intro a x k ha hk hset
    have hkfd := hne a x k ha hk
    change update s.timers fd _ k ≠ _ at hset
    show 0 < update s.timeouts fd timeout k ∧ _
    rw [update_of_ne hkfd] at hset ⊢
    exact h.awaited a x k ha hk hset

theorem Attached.construct (h : Attached s) (howned : Owned s) {a : ℕ} {ioc timeout : ℤ}
    {created : Option ℕ} {accepted : Bool} (hnone : s.objects a = none)
    (hstep : s.construct a ioc timeout created accepted = some s') : Attached s' := by
  rcases construct_cases hstep with rfl | ⟨fd, hunused, rfl | ⟨table, hadd, rfl⟩⟩
  · exact h
  · exact h.createTimer howned hunused timeout
  have hcreated := h.createTimer howned hunused timeout
  have hne := howned.ne_of_unused hunused
  obtain ⟨-, rfl⟩ := Epoll.Table.add_eq_some hadd
  have hobj : ∀ b y, s.objects b = some y → b ≠ a := by
    rintro b y hb rfl
    rw [hnone] at hb
    cases hb
  -- the entries of the other descriptors
  have hother : ∀ ioc' k, k ≠ fd → update s.tables ioc
      (update (s.tables ioc) fd (some ⟨{ input := true }, a⟩)) ioc' k = s.tables ioc' k := by
    intro ioc' k hk
    by_cases hi : ioc' = ioc
    · rw [hi, update_self, update_of_ne hk]
    · rw [update_of_ne hi]
  constructor
  case registered =>
    intro b x k hb hk
    rcases update_eq_some hb with ⟨rfl, ho⟩ | ⟨hba, hb'⟩
    · obtain rfl := Option.some.inj ho
      obtain rfl : fd = k := Option.some.inj hk
      refine ⟨ioc, ⟨{ input := true }, b⟩, rfl, ?_, Or.inl rfl⟩
      show update s.tables ioc (update (s.tables ioc) fd _) ioc fd = _
      rw [update_self, update_self]
    · obtain ⟨ioc', e, hioc, he, hdata⟩ := hcreated.registered b x k hb' hk
      exact ⟨ioc', e, hioc, (hother ioc' k (hne b x k hb' hk)).trans he, hdata⟩
  case entries =>
    intro ioc' k e he
    change update s.tables ioc (update (s.tables ioc) fd (some ⟨{ input := true }, a⟩)) ioc' k =
      some e at he
    by_cases hk : k = fd
    · subst hk
      by_cases hi : ioc' = ioc
      · rw [hi, update_self, update_self] at he
        obtain rfl := Option.some.inj he
        refine ⟨rfl, a, _, update_self a _ s.objects, rfl, ?_⟩
        rw [hi]
      · rw [update_of_ne hi] at he
        obtain ⟨-, b, y, hb, hy, -⟩ := h.entries ioc' k e he
        exact absurd rfl (hne b y k hb hy)
    · rw [hother ioc' k hk] at he
      obtain ⟨hevents, b, y, hb, hy, hyioc⟩ := h.entries ioc' k e he
      exact ⟨hevents, b, y, (update_of_ne (hobj b y hb) _ _).trans hb, hy, hyioc⟩
  case awaited =>
    intro b x k hb hk hset
    rcases update_eq_some hb with ⟨rfl, ho⟩ | ⟨hba, hb'⟩
    · obtain rfl := Option.some.inj ho
      obtain rfl : fd = k := Option.some.inj hk
      exact (hset (update_self fd _ s.timers)).elim
    · obtain ⟨hpos, c, hc⟩ := hcreated.awaited b x k hb' hk hset
      exact ⟨hpos, c, (update_of_ne hba _ _).trans hc⟩

theorem Attached.moveConstruct (h : Attached s) {a src : ℕ} {x : Object}
    (hx : s.objects src = some x) (hnone : s.objects a = none) (hempty : x.fd = none)
    (y : Object) (hy : y.fd = none) :
    Attached (State.place { s with objects := update s.objects src (some x.moved) } a y none) := by
  have hold : ∀ b z fd, update (update s.objects src (some x.moved)) a (some y) b = some z →
      z.fd = some fd → b ≠ a ∧ s.objects b = some z := by
    intro b z fd hb hz
    rcases update_eq_some hb with ⟨-, ho⟩ | ⟨hba, hb⟩
    · rw [← Option.some.inj ho, hy] at hz
      cases hz
    rcases update_eq_some hb with ⟨-, ho⟩ | ⟨-, hb⟩
    · rw [← Option.some.inj ho] at hz
      cases hz
    · exact ⟨hba, hb⟩
  refine h.carry ?_ ?_ ?_
  · intro b z fd hb hz
    exact ⟨b, z, (hold b z fd hb hz).2, hz, rfl, Or.inl rfl, rfl, fun _ => rfl⟩
  · refine fun ioc fd e he => ⟨he, fun b z hb hz => ⟨b, z, ?_, hz, rfl⟩⟩
    have hba : b ≠ a := by
      rintro rfl
      rw [hnone] at hb
      cases hb
    have hbsrc : b ≠ src := by
      rintro rfl
      rw [← Option.some.inj (hx.symm.trans hb), hempty] at hz
      cases hz
    show update (update s.objects src _) a _ b = some z
    rw [update_of_ne hba, update_of_ne hbsrc]
    exact hb
  · intro b z fd hb hz hset
    obtain ⟨hba, hb'⟩ := hold b z fd hb hz
    obtain ⟨hpos, c, hc⟩ := h.awaited b z fd hb' hz hset
    exact ⟨hpos, c, (update_of_ne hba _ _).trans hc⟩

theorem Attached.moveAssign (h : Attached s) (howned : Owned s) {dst src : ℕ} {d x : Object}
    (hne : dst ≠ src) (hd : s.objects dst = some d) (hx : s.objects src = some x)
    (hnever : ∀ fd, x.fd = some fd → d.ioc = x.ioc ∧ s.timeouts fd ≤ 0) :
    Attached { s.close d with
      objects := update (update s.objects src (some x.moved)) dst
        (some { d with fd := x.fd, sec := x.sec, ns := x.ns }) } := by
  -- an owner is the destination, with what the source had, or an object that is not involved
  have hold : ∀ b z fd, update (update s.objects src (some x.moved)) dst
        (some { d with fd := x.fd, sec := x.sec, ns := x.ns }) b = some z → z.fd = some fd →
      b = dst ∧ x.fd = some fd ∧ z.ioc = d.ioc ∨ b ≠ dst ∧ s.objects b = some z := by
    intro b z fd hb hz
    rcases update_eq_some hb with ⟨hbd, ho⟩ | ⟨hbd, hb⟩
    · obtain rfl := Option.some.inj ho
      exact Or.inl ⟨hbd, hz, rfl⟩
    rcases update_eq_some hb with ⟨-, ho⟩ | ⟨-, hb⟩
    · rw [← Option.some.inj ho] at hz
      cases hz
    · exact Or.inr ⟨hbd, hb⟩
  have hkept : ∀ b z fd, b ≠ dst → s.objects b = some z → z.fd = some fd → d.fd ≠ some fd :=
    fun b z fd hbd hb hz hdfd => hbd (howned.unique b dst z d fd hb hd hz hdfd)
  refine h.carry ?_ ?_ ?_
  · intro b z fd hb hz
    rcases hold b z fd hb hz with ⟨-, hxfd, hioc⟩ | ⟨hbd, hb'⟩
    · obtain ⟨hsame, hle⟩ := hnever fd hxfd
      exact ⟨src, x, hx, hxfd, hioc.trans hsame, Or.inr hle,
        congrFun (close_timeouts s d) fd, (close_of_ne s (hkept src x fd hne.symm hx hxfd)).2⟩
    · exact ⟨b, z, hb', hz, rfl, Or.inl rfl, congrFun (close_timeouts s d) fd,
        (close_of_ne s (hkept b z fd hbd hb' hz)).2⟩
  · intro ioc fd e he
    obtain ⟨hdfd, hold'⟩ := close_entry he
    refine ⟨hold', fun b z hb hz => ?_⟩
    by_cases hbsrc : b = src
    · subst hbsrc
      obtain rfl := Option.some.inj (hx.symm.trans hb)
      exact ⟨dst, _, update_self dst _ _, hz, (hnever fd hz).1⟩
    · have hbd : b ≠ dst := by
        rintro rfl
        rw [← Option.some.inj (hd.symm.trans hb)] at hz
        exact hdfd hz
      refine ⟨b, z, ?_, hz, rfl⟩
      show update (update s.objects src _) dst _ b = some z
      rw [update_of_ne hbd, update_of_ne hbsrc]
      exact hb
  · intro b z fd hb hz hset
    show 0 < (s.close d).timeouts fd ∧ ∃ c, (s.close d).lastAwaiter b = some c
    rw [close_timeouts, close_lastAwaiter]
    rcases hold b z fd hb hz with ⟨-, hxfd, -⟩ | ⟨hbd, hb'⟩
    · change (s.close d).timers fd ≠ _ at hset
      rw [(close_of_ne s (hkept src x fd hne.symm hx hxfd)).1] at hset
      exact absurd (h.awaited src x fd hx hxfd hset).1 (not_lt.mpr (hnever fd hxfd).2)
    · change (s.close d).timers fd ≠ _ at hset
      rw [(close_of_ne s (hkept b z fd hbd hb' hz)).1] at hset
      exact h.awaited b z fd hb' hz hset

theorem Attached.destroy (h : Attached s) (howned : Owned s) {a : ℕ} {x : Object}
    (hx : s.objects a = some x) :
    Attached { s.close x with objects := update s.objects a none } := by
  have hold : ∀ b z, update s.objects a none b = some z → b ≠ a ∧ s.objects b = some z := by
    intro b z hb
    rcases update_eq_some hb with ⟨-, ho⟩ | hrest
    · cases ho
    · exact hrest
  have hkept : ∀ b z fd, b ≠ a → s.objects b = some z → z.fd = some fd → x.fd ≠ some fd :=
    fun b z fd hba hb hz hxfd => hba (howned.unique b a z x fd hb hx hz hxfd)
  refine h.carry ?_ ?_ ?_
  · intro b z fd hb hz
    obtain ⟨hba, hb'⟩ := hold b z hb
    exact ⟨b, z, hb', hz, rfl, Or.inl rfl, congrFun (close_timeouts s x) fd,
      (close_of_ne s (hkept b z fd hba hb' hz)).2⟩
  · intro ioc fd e he
    obtain ⟨hxfd, hold'⟩ := close_entry he
    refine ⟨hold', fun b z hb hz => ⟨b, z, ?_, hz, rfl⟩⟩
    have hba : b ≠ a := by
      rintro rfl
      rw [← Option.some.inj (hx.symm.trans hb)] at hz
      exact hxfd hz
    exact (update_of_ne hba _ _).trans hb
  · intro b z fd hb hz hset
    obtain ⟨hba, hb'⟩ := hold b z hb
    change (s.close x).timers fd ≠ _ at hset
    show 0 < (s.close x).timeouts fd ∧ ∃ c, (s.close x).lastAwaiter b = some c
    rw [(close_of_ne s (hkept b z fd hba hb' hz)).1] at hset
    rw [close_timeouts, close_lastAwaiter]
    exact h.awaited b z fd hb' hz hset

theorem Attached.await (h : Attached s) (howned : Owned s) {a c : ℕ} {r : Bool}
    (hstep : s.awaitSuspend a c = some (r, s')) : Attached s' := by
  obtain ⟨me, hme, hcases⟩ := awaitSuspend_cases hstep
  -- the slot is filled; what the descriptor is set to comes second
  have hset : s'.objects = update s.objects a (some { me with awaitingCoro := some c }) ∧
      s'.tables = s.tables ∧ s'.timeouts = s.timeouts ∧
      s'.lastAwaiter = update s.lastAwaiter a (some c) ∧
      (∀ fd, me.fd ≠ some fd → s'.timers fd = s.timers fd) ∧
      ∀ fd, me.fd = some fd → s'.timers fd ≠ some .disarmed → 0 < s.timeouts fd := by
    rcases hcases with ⟨-, timers, hrearm, rfl⟩ | ⟨-, -, rfl⟩
    · obtain ⟨k, hk, -, -, -, -, htimers⟩ := timerfdSettime_eq_some hrearm
      refine ⟨rfl, rfl, rfl, rfl, fun fd hfd => ?_, fun fd hfd harmed => ?_⟩
      · show timers fd = _
        rw [htimers, update_of_ne]
        rintro rfl
        exact hfd hk
      · change timers fd ≠ _ at harmed
        rw [howned.rearm hme hfd] at hrearm
        obtain ⟨hnonneg, hrearm⟩ := Option.ite_none_left_eq_some.mp hrearm
        rw [← Option.some.inj hrearm, update_self] at harmed
        have hne : s.timeouts fd ≠ 0 := by
          intro hzero
          rw [if_pos hzero] at harmed
          exact harmed rfl
        exact lt_of_le_of_ne (not_lt.mp hnonneg) hne.symm
    · exact ⟨rfl, rfl, rfl, rfl, fun _ _ => rfl,
        fun fd hfd harmed => (h.awaited a me fd hme hfd harmed).1⟩
  obtain ⟨hobjects, htables, htimeouts, hlast, hothers, hself⟩ := hset
  refine h.carry ?_ ?_ ?_
  · intro b z fd hb hz
    rw [hobjects] at hb
    rcases update_eq_some hb with ⟨rfl, ho⟩ | ⟨-, hb'⟩
    · obtain rfl := Option.some.inj ho
      exact ⟨b, me, hme, hz, rfl, Or.inl rfl, by rw [htimeouts], fun _ => by rw [htables]⟩
    · exact ⟨b, z, hb', hz, rfl, Or.inl rfl, by rw [htimeouts], fun _ => by rw [htables]⟩
  · intro ioc fd e he
    rw [htables] at he
    refine ⟨he, fun b z hb hz => ?_⟩
    rw [hobjects]
    by_cases hba : b = a
    · subst hba
      obtain rfl := Option.some.inj (hme.symm.trans hb)
      exact ⟨b, _, update_self b _ s.objects, hz, rfl⟩
    · exact ⟨b, z, (update_of_ne hba _ _).trans hb, hz, rfl⟩
  · intro b z fd hb hz harmed
    rw [hobjects] at hb
    rw [htimeouts, hlast]
    rcases update_eq_some hb with ⟨rfl, ho⟩ | ⟨hba, hb'⟩
    · obtain rfl := Option.some.inj ho
      exact ⟨hself fd hz harmed, c, update_self b _ _⟩
    · have hmefd : me.fd ≠ some fd := fun hfd => hba (howned.unique b a z me fd hb' hme hz hfd)
      rw [hothers fd hmefd] at harmed
      obtain ⟨hpos, c', hc'⟩ := h.awaited b z fd hb' hz harmed
      exact ⟨hpos, c', (update_of_ne hba _ _).trans hc'⟩

theorem Attached.expire (h : Attached s) {fd : ℕ} (hfd : s.timers fd ≠ some .disarmed) :
    Attached { s with timers := update s.timers fd (some .expired) } := by
  refine h.carry ?_ ?_ ?_
  · exact fun a x k ha hk => ⟨a, x, ha, hk, rfl, Or.inl rfl, rfl, fun _ => rfl⟩
  · exact fun ioc k e he => ⟨he, fun b y hb hy => ⟨b, y, hb, hy, rfl⟩⟩
  · intro a x k ha hk hset
    by_cases hkfd : k = fd
    · subst hkfd
      exact h.awaited a x k ha hk hfd
    · change update s.timers fd _ k ≠ _ at hset
      rw [update_of_ne hkfd] at hset
      exact h.awaited a x k ha hk hset

theorem Attached.step (h : Attached s) (howned : Owned s) {act : Act} (hok : Unmoved s act)
    (hstep : step s act = some s') : Attached s' := by
  cases act with
  | construct a ioc timeout created accepted =>
      obtain ⟨hnone, hstep⟩ := Option.ite_none_right_eq_some.mp hstep
      exact h.construct howned hnone hstep
  | moveConstruct a src =>
      obtain ⟨x, hx, hnone, rfl⟩ := moveConstruct_cases hstep
      exact h.moveConstruct hx hnone (hok x hx) _ (hok x hx)
  | moveAssign dst src =>
      obtain ⟨d, x, hd, hx, ⟨-, rfl⟩ | ⟨hne, rfl⟩⟩ := moveAssign_cases hstep
      · exact h
      · exact h.moveAssign howned hne hd hx
          fun fd hfd => hok.resolve_left hne d x fd hd hx hfd
  | destroy a =>
      obtain ⟨x, hx, rfl⟩ := destroy_cases hstep
      exact h.destroy howned hx
  | await a c =>
      obtain ⟨⟨r, t⟩, hawait, rfl⟩ := Option.map_eq_some_iff.mp hstep
      exact h.await howned hawait
  | expire fd =>
      obtain ⟨sec, ns, hfd, rfl⟩ := expire_cases hstep
      have hset : s.timers fd ≠ some .disarmed := by
        rw [hfd]
        intro heq
        cases heq
      exact h.expire hset
  | event ioc fd =>
      obtain ⟨e, -, -, rfl⟩ := event_cases hstep
      exact ⟨h.registered, h.entries, h.awaited⟩

/-! ## A descriptor that is moved -/

/-- A new object takes over a descriptor, and no io context. -/
theorem not_sound_of_moveConstruct {a src fd : ℕ} {x : Object} (hx : s.objects src = some x)
    (hfd : x.fd = some fd) (hstep : step s (.moveConstruct a src) = some s') : ¬ s'.Sound := by
  intro hsound
  obtain ⟨x', hx', -, rfl⟩ := moveConstruct_cases hstep
  obtain rfl := Option.some.inj (hx.symm.trans hx')
  obtain ⟨ioc, hioc, -⟩ := hsound.context a _ fd (update_self a _ _) hfd
  cases hioc

/-- What a move assignment leaves of its destination and of the descriptor. -/
theorem moveAssign_spec (howned : Owned s) {dst src fd : ℕ} {d x : Object} (hne : dst ≠ src)
    (hd : s.objects dst = some d) (hx : s.objects src = some x) (hfd : x.fd = some fd)
    (hstep : step s (.moveAssign dst src) = some s') :
    s'.objects dst = some { d with fd := x.fd, sec := x.sec, ns := x.ns } ∧
      s'.objects src = some x.moved ∧ s'.timeouts = s.timeouts ∧
      ∀ ioc, s'.tables ioc fd = s.tables ioc fd := by
  obtain ⟨d', x', hd', hx', ⟨hself, -⟩ | ⟨-, rfl⟩⟩ := moveAssign_cases hstep
  · exact absurd hself hne
  obtain rfl := Option.some.inj (hd.symm.trans hd')
  obtain rfl := Option.some.inj (hx.symm.trans hx')
  have hdfd : d.fd ≠ some fd := fun hdfd => hne (howned.unique dst src d x fd hd hx hdfd hfd)
  refine ⟨update_self dst _ _, ?_, close_timeouts s d, (close_of_ne s hdfd).2⟩
  exact (update_of_ne hne.symm _ _).trans (update_self src _ _)

/-- The destination has another io context than the descriptor. -/
theorem Attached.not_sound_of_context (h : Attached s) (howned : Owned s) {dst src fd : ℕ}
    {d x : Object} (hne : dst ≠ src) (hd : s.objects dst = some d) (hx : s.objects src = some x)
    (hfd : x.fd = some fd) (hioc : d.ioc ≠ x.ioc)
    (hstep : AwaitableTimer.step s (.moveAssign dst src) = some s') : ¬ s'.Sound := by
  intro hsound
  obtain ⟨hdst, -, -, htables⟩ := moveAssign_spec howned hne hd hx hfd hstep
  obtain ⟨ioc, hdioc, hentry⟩ := hsound.context dst _ fd hdst hfd
  rw [htables] at hentry
  obtain ⟨e, he⟩ := Option.ne_none_iff_exists'.mp hentry
  obtain ⟨-, b, y, hb, hy, hyioc⟩ := h.entries ioc fd e he
  obtain rfl := howned.unique b src y x fd hb hx hy hfd
  obtain rfl := Option.some.inj (hb.symm.trans hx)
  exact hioc (hdioc.trans hyioc.symm)

/-- The destination is awaited and the descriptor fires: the source has another coroutine in
its slot. -/
theorem Attached.not_sound_of_slot (h : Attached s) (howned : Owned s) {dst src fd : ℕ}
    {d x : Object} (hne : dst ≠ src) (hd : s.objects dst = some d) (hx : s.objects src = some x)
    (hfd : x.fd = some fd) (hpos : 0 < s.timeouts fd)
    (hstep : AwaitableTimer.step s (.moveAssign dst src) = some s') {c : ℕ}
    (hc : x.awaitingCoro ≠ some c) :
    ∃ u, system.Meets Unmoved s' [.await dst c, .expire fd] ∧
      system.run s' [.await dst c, .expire fd] = some u ∧ ¬ u.Sound := by
  obtain ⟨hdst, hsrc, htimeouts, htables⟩ := moveAssign_spec howned hne hd hx hfd hstep
  obtain ⟨ioc, e, -, he, hdata⟩ := h.registered src x fd hx hfd
  obtain rfl : e.data = src := hdata.resolve_right (not_le.mpr hpos)
  have hevents := (h.entries ioc fd e he).1
  have hrearm := (howned.step hstep).rearm hdst hfd
  rw [htimeouts, if_neg (not_lt.mpr (le_of_lt hpos)), if_neg (ne_of_gt hpos)] at hrearm
  obtain ⟨t, ht⟩ : ∃ t, t = { s'.place dst
      { { d with fd := x.fd, sec := x.sec, ns := x.ns } with awaitingCoro := some c } (some c) with
    timers := update s'.timers fd (some (.armed (splitTimeout (s.timeouts fd)).1
      (splitTimeout (s.timeouts fd)).2)) } := ⟨_, rfl⟩
  have hawait : AwaitableTimer.step s' (.await dst c) = some t := by
    rw [ht]
    exact congrArg (Option.map Prod.snd) (awaitSuspend_of_rearm hdst hrearm c)
  obtain ⟨u, hu⟩ : ∃ u, u = { t with timers := update t.timers fd (some .expired) } := ⟨_, rfl⟩
  have hexpire : AwaitableTimer.step t (.expire fd) = some u := by
    have harmed : t.timers fd = some (.armed (splitTimeout (s.timeouts fd)).1
        (splitTimeout (s.timeouts fd)).2) := by
      rw [ht]
      exact update_self fd _ _
    simp only [AwaitableTimer.step, harmed, hu]
  have hentry : u.tables ioc fd = some e := by
    rw [hu, ht]
    exact (htables ioc).trans he
  have hexpired : u.timers fd = some .expired := by
    rw [hu]
    exact update_self fd _ _
  have hevent := event_of_expired hentry hevents hexpired
  refine ⟨u, ⟨trivial, t, hawait, trivial, u, hexpire, trivial⟩, ?_, fun hsound => ?_⟩
  · rw [run_cons _ hawait, run_cons _ hexpire]
    rfl
  have hudst : u.objects dst = some
      { { d with fd := x.fd, sec := x.sec, ns := x.ns } with awaitingCoro := some c } := by
    rw [hu, ht]
    exact update_self dst _ _
  have husrc : u.objects e.data = some x.moved := by
    rw [hu, ht]
    exact (update_of_ne hne.symm _ _).trans hsrc
  obtain ⟨c', hlast, hresumed⟩ := (hsound.resumes ioc fd _ hevent).2 dst _ hudst hfd
  obtain rfl : c = c' := by
    rw [hu, ht] at hlast
    exact Option.some.inj ((update_self dst _ _).symm.trans hlast)
  have hslot := List.append_cancel_left hresumed
  rw [husrc] at hslot
  exact hc (List.cons.inj hslot).1

end

/-- **Timers are sound exactly as long as no descriptor that can fire changes hands**, for any
constructions, moves, destructions, awaits and expirations: whoever owns a descriptor has its io
context, and each event resumes the last awaiter of the owner; a move against that breaks the one
or the other. -/
theorem sound_iff_unmoved (s : State) (h : system.ReachableUnder Unmoved s) :
    s.Sound ∧ ∀ act t, step s act = some t → ¬ Unmoved s act →
      ∃ acts u, system.Meets Unmoved t acts ∧ system.run t acts = some u ∧ ¬ u.Sound := by
  have hinv : Owned s ∧ Attached s := by
    apply h.invariant
    · rintro _ rfl
      refine ⟨⟨fun _ _ ha => ?_, fun _ _ _ _ _ ha => ?_⟩,
        ⟨fun _ _ _ ha => ?_, fun _ _ _ he => ?_, fun _ _ _ ha => ?_⟩⟩
      · cases ha
      · cases ha
      · cases ha
      · cases he
      · cases ha
    · exact fun _ _ _ hi hok hs => ⟨hi.1.step hs, hi.2.step hi.1 hok hs⟩
  obtain ⟨howned, hattached⟩ := hinv
  refine ⟨hattached.sound howned, fun act t hstep hnot => ?_⟩
  cases act with
  | moveConstruct a src =>
      simp only [Unmoved, not_forall] at hnot
      obtain ⟨x, hx, hfd⟩ := hnot
      obtain ⟨fd, hfd⟩ := Option.ne_none_iff_exists'.mp hfd
      exact ⟨[], t, trivial, rfl, not_sound_of_moveConstruct hx hfd hstep⟩
  | moveAssign dst src =>
      simp only [Unmoved, not_or, not_forall] at hnot
      obtain ⟨hne, d, x, fd, hd, hx, hfd, hbad⟩ := hnot
      by_cases hioc : d.ioc = x.ioc
      · have hpos : 0 < s.timeouts fd := by
          by_contra hle
          exact hbad ⟨hioc, not_lt.mp hle⟩
        obtain ⟨c, hc⟩ : ∃ c, x.awaitingCoro ≠ some c := by
          rcases x.awaitingCoro with _ | k
          · exact ⟨0, fun heq => nomatch heq⟩
          · exact ⟨k + 1, fun heq => Nat.ne_of_lt (Nat.lt_succ_self k) (Option.some.inj heq)⟩
        obtain ⟨u, hmeets, hrun, hunsound⟩ :=
          hattached.not_sound_of_slot howned hne hd hx hfd hpos hstep hc
        exact ⟨_, u, hmeets, hrun, hunsound⟩
      · exact ⟨[], t, trivial, rfl,
          hattached.not_sound_of_context howned hne hd hx hfd hioc hstep⟩
  | _ => exact absurd trivial hnot

/-- Two objects, one of them awaited twice; a self-assignment, and the events. -/
def twoTimers : List Act :=
  [.construct 0 3 5 (some 4) true, .construct 1 3 2000000000 (some 5) true, .await 0 7,
    .await 1 8, .moveAssign 1 1, .expire 5, .event 3 5, .await 1 9, .expire 4, .event 3 4,
    .expire 5, .event 3 5]

theorem sound_iff_unmoved_two_timers :
    ∃ s, system.run initial twoTimers = some s ∧ s.resumed = [some 8, some 7, some 9] ∧
      s.Sound := by
  have hm : system.Meets Unmoved initial twoTimers :=
    ⟨trivial, _, rfl, trivial, _, rfl, trivial, _, rfl, trivial, _, rfl, Or.inl rfl, _, rfl,
      trivial, _, rfl, trivial, _, rfl, trivial, _, rfl, trivial, _, rfl, trivial, _, rfl,
      trivial, _, rfl, trivial, _, rfl, trivial⟩
  have h0 : system.ReachableUnder Unmoved initial := .init rfl
  exact ⟨_, rfl, rfl, (sound_iff_unmoved _ (h0.run hm rfl)).1⟩

end Coroutines.AwaitableTimer
