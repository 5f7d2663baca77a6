import UnitControl.Proofs.Engine.Polling
import UnitControl.Proofs.Poller.Backlog
import UnitControl.Proofs.Poller.Ticks

/-!
# Pollers whose errors nobody takes

A poller goes on after a failed listing as long as there is room for the errors. When there is none
left it waits, and lists no more, until its consumer attends to the errors.
-/

namespace UnitControl

/-- A consumer takes an error of a poller, or stops listening for them. -/
def Event.AttendsFaults (id : PollerId) (event : Event) : Prop :=
  event = .take (.poller id) .faults ∨ event = .hangUp (.poller id) .faults

namespace Engine

variable {e e' : Engine} {id : PollerId} {p p' : Poller} {events : List Event}

theorem sparesFaults_of_pollEvent {event : Event} {noticed : Poller.Event}
    (h : e.pollEvent? id event = some noticed) (hn : ¬event.AttendsFaults id) :
    noticed.SparesFaults := by
  unfold pollEvent? at h
  split at h
  · rw [Option.ite_none_right_eq_some] at h
    cases h.2
    constructor <;> simp
  · obtain ⟨q, -, h⟩ := Option.bind_eq_some_iff.1 h
    rw [Option.ite_none_right_eq_some, Option.ite_none_right_eq_some] at h
    cases h.2.2
    constructor <;> simp
  · rw [Option.ite_none_right_eq_some] at h
    cases h.2
    constructor <;> simp
  · rw [Option.ite_none_right_eq_some] at h
    cases h.2
    constructor <;> simp
  · rw [Option.ite_none_right_eq_some] at h
    obtain ⟨rfl, h⟩ := h
    cases h
    constructor
    · rintro ⟨⟩
      exact hn (.inl rfl)
    · simp
  · rw [Option.ite_none_right_eq_some] at h
    obtain ⟨rfl, h⟩ := h
    cases h
    constructor
    · simp
    · rintro ⟨⟩
      exact hn (.inr rfl)
  · cases h

theorem sparesFaults_of_pollEvents (hn : ∀ event ∈ events, ¬event.AttendsFaults id) :
    ∀ noticed ∈ e.pollEvents id events, noticed.SparesFaults := by
  induction events generalizing e with
  | nil => simp [pollEvents]
  | cons event rest ih =>
    obtain ⟨hevent, hrest⟩ := List.forall_mem_cons.1 hn
    intro noticed hm
    rw [pollEvents, List.mem_append] at hm
    obtain hm | hm := hm
    · exact sparesFaults_of_pollEvent (Option.mem_toList.1 hm) hevent
    · cases hs : e.step event with
      | some e₁ =>
        rw [hs] at hm
        exact ih hrest noticed hm
      | none =>
        rw [hs] at hm
        cases hm

theorem stepPoller_of_step {noticed : Poller.Event} (hp : e.pollers.get? id = some p)
    (hs : p.step noticed = some p') : e.stepPoller? id noticed = some (e.afterPoll id p') := by
  simp only [stepPoller?, hp, hs, Option.map_some]

theorem get?_afterPoll_self (e : Engine) (id : PollerId) (p : Poller) :
    (e.afterPoll id p).pollers.get? id = some p :=
  (get?_afterPoll e id p id).trans (if_pos rfl)

theorem step_listed {result : Except Error (List UnitStatus)} (hp : e.pollers.get? id = some p)
    (hs : p.step (.listed e.clock result) = some p') :
    ∃ e', e.step (.listReturned (.poller id) result) = some e' ∧
      e'.pollers.get? id = some p' := by
  let x := e.note (.listed id result)
  have hr : e.react (.listReturned (.poller id) result) = some (x.afterPoll id p') :=
    stepPoller_of_step (e := x) hp hs
  obtain ⟨d, hstep⟩ := exists_step_of_react hr
  exact ⟨_, hstep, get?_afterPoll_self x id p'⟩

theorem step_wakePoller (hp : e.pollers.get? id = some p) (hs : p.step (.wake e.clock) = some p')
    (hl : p'.isListing = true) :
    ∃ e', e.step (.wakePoller id) = some e' ∧
      e'.journal = .asked (.list (.poller id)) :: e.journal ∧ e'.pollers.get? id = some p' := by
  have hr : e.react (.wakePoller id) = some (e.afterPoll id p') := stepPoller_of_step hp hs
  obtain ⟨d, hstep⟩ := exists_step_of_react hr
  refine ⟨_, hstep, ?_, get?_afterPoll_self e id p'⟩
  simp only [afterPoll, hl, if_true]
  rfl

theorem step_unblockPoller (hp : e.pollers.get? id = some p)
    (hs : p.step (.unblock e.clock) = some p') :
    ∃ e', e.step (.unblockPoller id) = some e' ∧ e'.pollers.get? id = some p' := by
  have hr : e.react (.unblockPoller id) = some (e.afterPoll id p') := stepPoller_of_step hp hs
  obtain ⟨d, hstep⟩ := exists_step_of_react hr
  exact ⟨_, hstep, get?_afterPoll_self e id p'⟩

theorem step_attend {event : Event} (hp : e.pollers.get? id = some p)
    (he : event.AttendsFaults id) : ∃ noticed,
      (noticed = .take .faults ∨ noticed = .hangUp .faults) ∧ ∀ p', p.step noticed = some p' →
        ∃ e', e.step event = some e' ∧ e'.pollers.get? id = some p' ∧ e'.clock = e.clock := by
  have honPoller {noticed : Poller.Event} (hr : e.react event = e.onPoller? id noticed)
      (p' : Poller) (hs : p.step noticed = some p') :
      ∃ e', e.step event = some e' ∧ e'.pollers.get? id = some p' ∧ e'.clock = e.clock := by
    simp only [onPoller?, hp, hs, Option.map_some] at hr
    obtain ⟨d, hstep⟩ := exists_step_of_react hr
    exact ⟨_, hstep, Table.get?_put_self _ _ _, rfl⟩
  obtain rfl | rfl := he
  · exact ⟨_, .inl rfl, honPoller rfl⟩
  · exact ⟨_, .inr rfl, honPoller rfl⟩

/-- The poller does not wait for its consumer to take an error, and lists when it is time. -/
def PollsOn (e : Engine) (id : PollerId) (p : Poller) : Prop :=
  p.stage ≠ .blocked .faults ∧
    ((p.stage = .starting ∨ ∃ wake, p.stage = .sleeping wake ∧ wake ≤ e.clock.now) →
      ∃ e' p', e.step (.wakePoller id) = some e' ∧
        e'.journal = .asked (.list (.poller id)) :: e.journal ∧
        e'.pollers.get? id = some p' ∧ p'.stage = .listing)

/-- Whatever happens, the poller waits and hears of nothing but its consumer's doings with changes,
until the consumer attends to the errors. -/
def IsStuck (e : Engine) (id : PollerId) (p : Poller) : Prop :=
  ∀ later e', e.run later = some e' → (∀ event ∈ later, ¬event.AttendsFaults id) →
    (∀ noticed ∈ e.pollEvents id later, noticed = .take .values ∨ noticed = .hangUp .values) ∧
      ∃ p', e'.pollers.get? id = some p' ∧ p'.stage = .blocked .faults ∧
        p'.previous = p.previous

/-- A consumer that listens for errors but takes none: its poller goes on as long as no more
listings have failed than there is room for, with one message of changes for each listing that has
succeeded, and after a failure it lists again one interval after the tick at which it has listed. A
listing that fails when there is no room left is the last one: from then on the poller waits for
ever, unless the consumer takes an error or hangs up. -/
theorem run_backs_up {e₀ e₁ e : Engine} {interval : Duration} {capacity : Nat}
    {isChanged : UnitStatus → UnitStatus → Bool} {scope : Scope} {events : List Event}
    (hs : e₀.step (.poll interval capacity isChanged scope) = some e₁)
    (hr : e₁.run events = some e) (hn : ∀ event ∈ events, ¬event.AttendsFaults e₀.fresh) :
    ∃ p, e.pollers.get? e₀.fresh = some p ∧
      let noticed := e₁.pollEvents e₀.fresh events
      let failed := (Poller.failures noticed).length
      let ticks := Poller.ticks noticed
      failed ≤ capacity + 1 ∧
      (p.feed.values.listening = true → (Poller.listings noticed).length =
        ((Poller.start interval capacity isChanged scope).received noticed ++
          p.feed.values.queue).length + p.unscoped.length) ∧
      (failed ≤ capacity → e.PollsOn e₀.fresh p) ∧
      (p.stage = .listing → ∃ tick, ticks.getLast? = some tick ∧ ∀ err, ∃ e' p',
        e.step (.listReturned (.poller e₀.fresh) (.error err)) = some e' ∧
        e'.pollers.get? e₀.fresh = some p' ∧ p'.stage =
          if failed < capacity then .sleeping (Poller.nextTick interval tick e.clock)
          else .blocked .faults) ∧
      (capacity < failed → e.IsStuck e₀.fresh p ∧ ∃ tick, ticks.getLast? = some tick ∧
        ∀ event, event.AttendsFaults e₀.fresh → ∃ x e' p', e.step event = some x ∧
          x.step (.unblockPoller e₀.fresh) = some e' ∧ e'.pollers.get? e₀.fresh = some p' ∧
          p'.stage = .sleeping (Poller.nextTick interval tick e.clock)) := by
  obtain ⟨hstart, hlt⟩ := poller_of_poll hs
  obtain ⟨p, hp, hrun⟩ := poller_run hr hstart hlt
  have hid : e₀.fresh < e.fresh := Nat.lt_of_lt_of_le hlt (fresh_le_of_run hr)
  have hu : p.Unattended capacity (Poller.failures (e₁.pollEvents e₀.fresh events)) :=
    (Poller.unattended_start interval capacity isChanged scope).run
      (sparesFaults_of_pollEvents hn) hrun
  have hinterval : p.interval = interval := Poller.interval_run hrun
  have htimed : p.Timed (Poller.ticks (e₁.pollEvents e₀.fresh events)) :=
    (Poller.Timed.start interval capacity isChanged scope).run hrun
  refine ⟨p, hp, hu.bound, fun hl => ?_, fun hroom => ⟨?_, fun hdue => ?_⟩,
    fun hlisting => ?_, fun hfull => ⟨fun later e' hlater hspare => ?_, ?_⟩⟩
  · obtain ⟨hm, hlen⟩ := Poller.run_start_messages hrun hl
    rw [hlen, hm, Snapshot.diffs, Snapshot.length_diffsFrom, List.length_map]
  · exact fun hb => Nat.not_lt.2 hroom (hu.blocked.1 hb)
  · have hwake := hu.wakes ((p.isDue_iff e.clock).2 hdue)
    obtain ⟨e', hstep, hjournal, hp'⟩ := step_wakePoller hp hwake rfl
    exact ⟨e', _, hstep, hjournal, hp', rfl⟩
  · obtain ⟨tick, hlast, hasleep⟩ := htimed.exists_look (by simp [hlisting]) (by simp [hlisting])
    refine ⟨tick, hlast, fun err => ?_⟩
    obtain ⟨p', hs', hstage⟩ := hu.fails hlisting e.clock err
    obtain ⟨e', hstep, hp'⟩ := step_listed hp hs'
    exact ⟨e', p', hstep, hp', hinterval ▸ hasleep e.clock ▸ hstage⟩
  · obtain ⟨p', hp', hrun'⟩ := poller_run hlater hp hid
    obtain ⟨hall, hstage, hprevious⟩ := hu.halts hfull (sparesFaults_of_pollEvents hspare) hrun'
    exact ⟨hall, p', hp', hstage, hprevious⟩
  · have hblocked := hu.blocked.2 hfull
    obtain ⟨tick, hlast, hasleep⟩ := htimed.exists_look (by simp [hblocked]) (by simp [hblocked])
    refine ⟨tick, hlast, fun event he => ?_⟩
    obtain ⟨noticed, hattend, hsteps⟩ := step_attend hp he
    obtain ⟨p₁, p₂, hs₁, hs₂, hstage⟩ := hu.freed hfull hattend e.clock
    obtain ⟨x, hx, hpx, hclock⟩ := hsteps p₁ hs₁
    obtain ⟨e', hstep, hp'⟩ := step_unblockPoller hpx (hclock.symm ▸ hs₂)
    exact ⟨x, e', p₂, hx, hstep, hp', hinterval ▸ hstage.trans (hasleep e.clock)⟩

/-- The first listing fails, and time goes by. -/
def unread : List Event :=
  [.wakePoller 0,
    .listReturned (.poller 0) (.error (.dbusError "org.freedesktop.DBus.Error.Failed" "busy")),
    .tick 1000 1000]

/-- Without a buffer the first failure is the last listing. -/
theorem run_backs_up_unread :
    ∃ e₁ e p, (Engine.start 1 .exact).step (.poll ⟨1000⟩ 0 UnitStatus.differs .all) = some e₁ ∧
      e₁.run unread = some e ∧ e.clock.now = 1000 ∧ e.pollers.get? 0 = some p ∧
      e.IsStuck 0 p := by
  let e₁ := ((Engine.start 1 .exact).step (.poll ⟨1000⟩ 0 UnitStatus.differs .all)).get
    (by decide +kernel)
  let e := (e₁.run unread).get (by decide +kernel)
  have hs : (Engine.start 1 .exact).step (.poll ⟨1000⟩ 0 UnitStatus.differs .all) = some e₁ :=
    (Option.some_get _).symm
  have hr : e₁.run unread = some e := (Option.some_get _).symm
  have hn : ∀ event ∈ unread, ¬event.AttendsFaults 0 := by
    simp [unread, Event.AttendsFaults]
  obtain ⟨p, hp, -, -, -, -, hfull⟩ := run_backs_up hs hr hn
  exact ⟨e₁, e, p, hs, hr, by decide +kernel, hp, (hfull (by decide +kernel)).1⟩

end Engine

end UnitControl
