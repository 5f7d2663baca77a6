import UnitControl.Proofs.Engine.Backlog
import UnitControl.Proofs.Engine.ListCalls
import UnitControl.Proofs.Engine.Places

/-!
# As long as somebody may listen

Consumers may drop the two lanes of a poller at any time and in any order. The poller notices
wherever it is: it waits for nobody who has gone, goes on for whoever is left, and lists no more
when both have gone.
-/

namespace UnitControl.Engine

variable {e e' : Engine} {id : PollerId} {p p' : Poller} {event : Event} {events : List Event}
  {lane : Lane}

theorem pollEvent?_eq_hangUp_iff :
    e.pollEvent? id event = some (.hangUp lane) ↔ event = .hangUp (.poller id) lane := by
  constructor
  · intro h
    unfold pollEvent? at h
    split at h
    case h_2 =>
      obtain ⟨q, -, h⟩ := Option.bind_eq_some_iff.1 h
      rw [Option.ite_none_right_eq_some, Option.ite_none_right_eq_some] at h
      cases h.2.2
    case h_6 =>
      rw [Option.ite_none_right_eq_some] at h
      obtain ⟨rfl, h⟩ := h
      cases h
      rfl
    case h_7 => cases h
    all_goals
      rw [Option.ite_none_right_eq_some] at h
      cases h.2
  · rintro rfl
    exact if_pos rfl

theorem hangUp_mem_pollEvents (h : e.run events = some e') :
    .hangUp lane ∈ e.pollEvents id events ↔ .hangUp (.poller id) lane ∈ events := by
  induction events generalizing e with
  | nil => exact iff_of_false (fun h => by cases h) (fun h => by cases h)
  | cons event rest ih =>
    obtain ⟨e₁, hs, h⟩ := Option.bind_eq_some_iff.1 h
    simp only [pollEvents, hs]
    rw [List.mem_append, Option.mem_toList, pollEvent?_eq_hangUp_iff, ih h, List.mem_cons, eq_comm]

/-- The poller has to look which lanes are dropped, and ends if both are. Otherwise it lists. -/
def LooksFirst (e : Engine) (id : PollerId) (dropped : Lane → Prop) : Prop :=
  e.next? (.poller id) = some (.wakePoller id) ∧ ∃ e' p',
    e.step (.wakePoller id) = some e' ∧ e'.pollers.get? id = some p' ∧
      ((∀ lane, dropped lane) → p'.stage = .ended ∧ e'.listCalls id = e.listCalls id) ∧
      (¬(∀ lane, dropped lane) → p'.stage = .listing ∧ e'.listCalls id = e.listCalls id + 1)

/-- What a poller does next, wherever it is, when consumers have dropped these lanes. -/
structure KeepsPolling (e : Engine) (id : PollerId) (p : Poller) (ticks : List Clock)
    (dropped : Lane → Prop) : Prop where
  starting : p.stage = .starting → e.LooksFirst id dropped
  /-- Its calls are answered, whatever the answer. -/
  listing : p.stage = .listing → ∀ result, ∃ e' p',
    e.step (.listReturned (.poller id) result) = some e' ∧ e'.pollers.get? id = some p' ∧
      (p'.isScoping = true ∨ p'.HasSent)
  scoping : p.isScoping = true → .poller id ∈ e.queue ∧ (e.holder = none → ∃ e' p',
    e.step (.grant (.poller id)) = some e' ∧ e'.pollers.get? id = some p' ∧ p'.HasSent)
  blocked : ∀ lane, p.stage = .blocked lane → dropped lane →
    e.next? (.poller id) = some (.unblockPoller id) ∧ ∃ tick e' p',
      ticks.getLast? = some tick ∧ e.step (.unblockPoller id) = some e' ∧
        e'.pollers.get? id = some p' ∧
        p'.stage = .sleeping (Poller.nextTick p.interval tick e.clock)
  sleeping : ∀ wake, p.stage = .sleeping wake → wake ≤ e.clock.now → e.LooksFirst id dropped
  ended : p.stage = .ended → ∀ lane, dropped lane

theorem next?_poller (h : e.Reachable) (hp : e.pollers.get? id = some p)
    (hs : p.isScoping = false) : e.next? (.poller id) = e.nextOfPoller? id := by
  have hn : e.queue.contains (.poller id) = false := by
    refine Bool.not_eq_true _ ▸ fun hq => ?_
    have hw := h.wants_of_mem_queue (List.contains_iff_mem.1 hq)
    rw [wants, hp, Option.any_some, hs] at hw
    cases hw
  simp only [next?, hn, Bool.false_eq_true, if_false]

theorem mem_queue_of_isScoping (h : e.Reachable) (hp : e.pollers.get? id = some p)
    (hs : p.isScoping = true) : .poller id ∈ e.queue := by
  have hplaces := h.places (.poller id)
  have hfree : (e.holder.any fun holder => decide (holder.task = .poller id)) = false := by
    cases hh : e.holder with
    | none => rfl
    | some holder =>
      have hop := h.lines.holder holder hh
      simp only [Option.any_some, decide_eq_false_iff_not]
      intro hd
      rw [hd] at hop
      exact hop
  rw [places, hfree, wants, hp, Option.any_some, hs] at hplaces
  rw [Bool.toNat_false, Nat.add_zero] at hplaces
  exact List.count_pos_iff.1 (hplaces ▸ Nat.one_pos)

theorem looksFirst (h : e.Reachable) (hp : e.pollers.get? id = some p)
    (hdue : p.isDue e.clock = true) {dropped : Lane → Prop}
    (hd : ∀ lane, dropped lane ↔ p.feed.listening lane = false) : e.LooksFirst id dropped := by
  obtain ⟨p', hs', hstage⟩ := Poller.step_wake hdue
  have hr : e.react (.wakePoller id) = some (e.afterPoll id p') := stepPoller_of_step hp hs'
  obtain ⟨d, hstep⟩ := exists_step_of_react hr
  have hidle : p.isScoping = false ∧ e.stepPoller? id (.unblock e.clock) = none := by
    obtain hs | ⟨wake, hs, -⟩ := (p.isDue_iff e.clock).1 hdue <;>
      simp [stepPoller?, hp, Poller.step, Poller.isScoping, hs]
  refine ⟨?_, _, p', hstep, get?_afterPoll_self _ id _, fun hall => ?_, fun hsome => ?_⟩
  · rw [next?_poller h hp hidle.1, nextOfPoller?, hidle.2, stepPoller_of_step hp hs',
      Option.isSome_none, if_neg (by simp), Option.isSome_some, if_pos rfl]
  · have hended : p'.stage = .ended :=
      hstage.trans (if_pos (Feed.deserted_iff.2 fun lane => (hd lane).1 (hall lane)))
    exact ⟨hended, SameCalls.afterPoll e fun _ => by simp [hended]⟩
  · have hheard : ¬p.feed.deserted = true := fun hdeserted =>
      hsome fun lane => (hd lane).2 (Feed.deserted_iff.1 hdeserted lane)
    have hlisting : p'.stage = .listing := hstage.trans (if_neg hheard)
    exact ⟨hlisting, listCalls_afterPoll e hlisting⟩

theorem keepsPolling (h : e.Reachable) (hp : e.pollers.get? id = some p) (ha : p.Attentive)
    {ticks : List Clock} (ht : p.Timed ticks) {dropped : Lane → Prop}
    (hd : ∀ lane, dropped lane ↔ p.feed.listening lane = false) :
    e.KeepsPolling id p ticks dropped where
  starting hs := looksFirst h hp ((p.isDue_iff _).2 (.inl hs)) hd
  listing hs result := by
    obtain ⟨p', hs', hlater⟩ := ha.step_listed hs e.clock result
    obtain ⟨e', hstep, hp'⟩ := step_listed hp hs'
    exact ⟨e', p', hstep, hp', hlater⟩
  scoping hs := by
    have hq := mem_queue_of_isScoping h hp hs
    refine ⟨hq, fun hh => ?_⟩
    obtain ⟨p', hs'⟩ := Option.isSome_iff_exists.1
      ((isSome_step_scoped p e.clock (e.membersIn p.scope)).trans hs)
    have hr : e.react (.grant (.poller id)) =
        some ({ e with queue := e.queue.erase (.poller id) }.enter (.poller id)) := by
      simp [react, grant?, hh, hq]
    obtain ⟨d, hstep⟩ := exists_step_of_react hr
    have hpollers := pollers_enter_poller hp (e.queue.erase (.poller id))
    rw [hs'] at hpollers
    refine ⟨_, p', hstep, ?_, ha.hasSent_of_scoped hs'⟩
    dsimp only
    rw [hpollers, Table.get?_put_self]
  blocked lane hs hlane := by
    have hs' := ha.step_unblock hs ((hd lane).1 hlane) e.clock
    obtain ⟨e', hstep, hp'⟩ := step_unblockPoller hp hs'
    obtain ⟨tick, hlast, hasleep⟩ := ht.exists_look (by simp [hs]) (by simp [hs])
    refine ⟨?_, tick, e', _, hlast, hstep, hp', hasleep e.clock⟩
    rw [next?_poller h hp (by simp [Poller.isScoping, hs]), nextOfPoller?,
      stepPoller_of_step hp hs', Option.isSome_some, if_pos rfl]
  sleeping wake hs hle := looksFirst h hp ((p.isDue_iff _).2 (.inr ⟨wake, hs, hle⟩)) hd
  ended hs lane := (hd lane).2 (Feed.deserted_iff.1 (ha.ended hs) lane)

/-- Whenever consumers have dropped some lanes of a poller, it goes on for those who are left: it
has ended only if both lanes are dropped, it does not wait on one that is but sleeps until its next
tick, and it ends instead of listing, for the first time or again, if both are. As long as a lane is
not dropped, all that was to be sent there has been taken or is queued; once both are, the poller
makes no call any more. -/
theorem run_polls_while_heard {e₀ e₁ : Engine} {interval : Duration} {capacity : Nat}
    {isChanged : UnitStatus → UnitStatus → Bool} {scope : Scope} (h : e₀.Reachable)
    (hs : e₀.step (.poll interval capacity isChanged scope) = some e₁)
    (hr : e₁.run events = some e) :
    ∃ p, e.pollers.get? e₀.fresh = some p ∧ p.interval = interval ∧
      let dropped lane := Event.hangUp (.poller e₀.fresh) lane ∈ events
      let started := Poller.start interval capacity isChanged scope
      let noticed := e₁.pollEvents e₀.fresh events
      e.KeepsPolling e₀.fresh p (Poller.ticks noticed) dropped ∧
      ((∀ lane, dropped lane) → ∀ later x, e.run later = some x →
        x.listCalls e₀.fresh = e.listCalls e₀.fresh) ∧
      (¬dropped .values → started.issued .values noticed p =
        Snapshot.diffs isChanged
          ((scope.views (Poller.listings noticed) (Poller.memberships noticed)).map .ofRows)) ∧
      (¬dropped .faults → started.issued .faults noticed p = Poller.failures noticed) := by
  obtain ⟨hstart, hlt⟩ := poller_of_poll hs
  obtain ⟨p, hp, hrun⟩ := poller_run hr hstart hlt
  have hid : e₀.fresh < e.fresh := Nat.lt_of_lt_of_le hlt (fresh_le_of_run hr)
  have ha : p.Attentive := (Poller.Attentive.start interval capacity isChanged scope).run hrun
  have hheard (lane : Lane) :
      p.feed.listening lane = true ↔ .hangUp (.poller e₀.fresh) lane ∉ events := by
    rw [Poller.listening_run hrun, hangUp_mem_pollEvents hr]
    exact and_iff_left (by cases lane <;> rfl)
  have hdropped (lane : Lane) :
      .hangUp (.poller e₀.fresh) lane ∈ events ↔ p.feed.listening lane = false := by
    rw [← Bool.not_eq_true, hheard, not_not]
  have ht : p.Timed (Poller.ticks (e₁.pollEvents e₀.fresh events)) :=
    (Poller.Timed.start interval capacity isChanged scope).run hrun
  refine ⟨p, hp, Poller.interval_run hrun, keepsPolling ((h.step hs).run hr) hp ha ht hdropped,
    fun hall later x hx => ?_,
    fun hvalues => (Poller.issued_changes hrun).2 ((hheard .values).2 hvalues),
    fun hfaults => (Poller.issued_errors hrun).2 ((hheard .faults).2 hfaults)⟩
  exact listCalls_of_run hx hp hid (Feed.deserted_iff.2 fun lane => (hdropped lane).1 (hall lane))

/-- A consumer goes while the poller waits for it, the other one when the next listing has failed
and the poller waits for that one. -/
def deserting : List Event :=
  [.wakePoller 0, .listReturned (.poller 0) (.ok [.ofStates "a.service" .loaded .active]),
    .hangUp (.poller 0) .values, .unblockPoller 0, .tick 10 10, .wakePoller 0,
    .listReturned (.poller 0) (.error (.ioError "bus")), .hangUp (.poller 0) .faults,
    .unblockPoller 0, .tick 10 10]

/-- Both consumers go before the poller has run. -/
def unheard : List Event := [.hangUp (.poller 0) .values, .hangUp (.poller 0) .faults]

theorem run_polls_while_heard_deserting :
    ∃ e₁ e p x q, (Engine.start 1 .exact).step (.poll ⟨10⟩ 0 UnitStatus.differs .all) = some e₁ ∧
      e₁.run deserting = some e ∧ e.pollers.get? 0 = some p ∧
      (∀ later y, e.run later = some y → y.listCalls 0 = 2) ∧
      (∃ e' p', e.step (.wakePoller 0) = some e' ∧ e'.pollers.get? 0 = some p' ∧
        p'.stage = .ended) ∧
      e₁.run unheard = some x ∧ x.pollers.get? 0 = some q ∧
      (∀ later y, x.run later = some y → y.listCalls 0 = 0) ∧
      ∃ x' q', x.step (.wakePoller 0) = some x' ∧ x'.pollers.get? 0 = some q' ∧
        q'.stage = .ended := by
  let e₁ := ((Engine.start 1 .exact).step (.poll ⟨10⟩ 0 UnitStatus.differs .all)).get
    (by decide +kernel)
  let e := (e₁.run deserting).get (by decide +kernel)
  let x := (e₁.run unheard).get (by decide +kernel)
  have hs : (Engine.start 1 .exact).step (.poll ⟨10⟩ 0 UnitStatus.differs .all) = some e₁ :=
    (Option.some_get _).symm
  have hr : e₁.run deserting = some e := (Option.some_get _).symm
  have hx : e₁.run unheard = some x := (Option.some_get _).symm
  obtain ⟨p, hp, -, hkeeps, hcalls, -⟩ := run_polls_while_heard ⟨1, .exact, [], rfl⟩ hs hr
  obtain ⟨q, hq, -, hkeeps', hcalls', -⟩ := run_polls_while_heard ⟨1, .exact, [], rfl⟩ hs hx
  have hall : ∀ lane, Event.hangUp (.poller 0) lane ∈ deserting := by
    intro lane
    cases lane <;> simp [deserting]
  have hall' : ∀ lane, Event.hangUp (.poller 0) lane ∈ unheard := by
    intro lane
    cases lane <;> simp [unheard]
  have htwo : e.listCalls 0 = 2 := by decide +kernel
  have hnone : x.listCalls 0 = 0 := by decide +kernel
  have hwake : p.stage = .sleeping 20 := by
    have hd : e.deadline? (.poller 0) = some 20 := by decide +kernel
    have hp : e.pollers.get? 0 = some p := hp
    simp only [deadline?, hp, Option.map_some] at hd
    split at hd
    · rename_i hstage
      cases hd
      exact Option.some.inj hstage
    · cases hd
  have hstarting : q.stage = .starting := by
    cases hx
    cases hq
    rfl
  obtain ⟨-, e', p', hstep, hp', hends, -⟩ := hkeeps.sleeping 20 hwake (by decide +kernel)
  obtain ⟨-, x', q', hstep', hq', hends', -⟩ := hkeeps'.starting hstarting
  exact ⟨e₁, e, p, x, q, hs, hr, hp, fun later y hy => (hcalls hall later y hy).trans htwo,
    ⟨e', p', hstep, hp', (hends hall).1⟩, hx, hq,
    fun later y hy => (hcalls' hall' later y hy).trans hnone, x', q', hstep', hq', (hends' hall').1⟩

end UnitControl.Engine
