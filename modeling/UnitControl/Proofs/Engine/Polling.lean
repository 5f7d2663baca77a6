import UnitControl.Proofs.Engine.Answers
import UnitControl.Proofs.Poller.Replay

/-!
# Pollers in a running engine

Of all that happens to an engine a poller notices only its own listings, its own turns with the
registry, its own waits, and its own consumer. So each poller of an engine is a poller in a run of
its own, in which its set has the members that the registry knows at that time.
-/

namespace UnitControl.Engine

def membersIn (e : Engine) : Scope → List String
  | .membersOf s => e.registry.members s
  | .all | .named _ => []

def pollEvent? (e : Engine) (id : PollerId) : Event → Option Poller.Event
  | .listReturned (.poller i) result => if i = id then some (.listed e.clock result) else none
  | .grant (.poller i) =>
    (e.pollers.get? i).bind fun p =>
      if p.isScoping then
        if i = id then some (.scoped e.clock (e.membersIn p.scope)) else none
      else none
  | .unblockPoller i => if i = id then some (.unblock e.clock) else none
  | .wakePoller i => if i = id then some (.wake e.clock) else none
  | .take (.poller i) lane => if i = id then some (.take lane) else none
  | .hangUp (.poller i) lane => if i = id then some (.hangUp lane) else none
  | _ => none

def pollEvents (id : PollerId) : Engine → List Event → List Poller.Event
  | _, [] => []
  | e, event :: rest =>
    (e.pollEvent? id event).toList ++ match e.step event with
      | some e' => pollEvents id e' rest
      | none => []

variable {e e' : Engine}

@[simp] theorem pollers_answer (e : Engine) (id : CallerId) (a : Answer) :
    (e.answer id a).pollers = e.pollers := by
  unfold answer
  split <;> rfl

@[simp] theorem pollers_dispatch (e : Engine) (r : Dispatcher × List Reply) :
    (e.dispatch r).pollers = e.pollers :=
  answerAll_induct (e := { e with dispatcher := r.1 }) (I := fun e' => e'.pollers = e.pollers) rfl
    fun _ _ _ h => (pollers_answer _ _ _).trans h

@[simp] theorem pollers_abandon (e : Engine) (feed : Option FeedId) :
    (e.abandon feed).pollers = e.pollers := by
  cases feed <;> rfl

@[simp] theorem pollers_startWatch (e : Engine) (feed : FeedId) :
    (e.startWatch feed).pollers = e.pollers := by
  unfold startWatch
  split <;> rfl

@[simp] theorem pollers_conclude (e : Engine) (caller : CallerId) (op : Registry.Operation)
    (finish : Finish) (result : Except Error Unit) :
    (e.conclude caller op finish result).pollers = e.pollers := by
  unfold conclude
  cases result with
  | error err => simp
  | ok u =>
    cases finish with
    | answer => simp
    | watch => cases op.newcomer? <;> simp
    | undo next cause => cases op.newcomer? <;> rfl
    | fail cause => simp

@[simp] theorem pollers_finish (e : Engine) (task : Task) (result : Except Error Unit) :
    (e.finish task result).pollers = e.pollers := by
  unfold finish
  split
  · split
    · exact pollers_conclude _ _ _ _ _
    · rfl
  · split <;> rfl
  · rfl
  · rfl

@[simp] theorem pollers_proceed (e : Engine) (task : Task) (r : Registry × Registry.Progress) :
    (e.proceed task r).pollers = e.pollers := by
  unfold proceed
  split
  · exact pollers_finish _ _ _
  · rfl

@[simp] theorem pollers_operate (e : Engine) (task : Task) (op : Registry.Operation) :
    (e.operate task op).pollers = e.pollers := by
  unfold operate
  cases e.registry.closes op <;> exact pollers_proceed _ _ _

@[simp] theorem pollers_submit (e : Engine) (id : CallerId) (request : JobRequest)
    (limit : Option (Nat × Error)) : (e.submit id request limit).pollers = e.pollers := by
  unfold submit
  split <;> rfl

theorem pollers_submitWithin (e : Engine) (id : CallerId) (request : JobRequest) (d : Duration)
    (ago : Nat) (looks : Bool) : (e.submitWithin id request d ago looks).pollers = e.pollers := by
  obtain ⟨err, -, h⟩ | ⟨deadline, h⟩ := submitWithin_cases e id request d ago looks
  · rw [h]
    rfl
  · rw [h, pollers_submit]

@[simp] theorem pollers_operateOn (e : Engine) (id : CallerId) (unit : String)
    (op : String → Registry.Operation) : (e.operateOn id unit op).pollers = e.pollers := by
  unfold operateOn
  split <;> rfl

@[simp] theorem pollers_call (e : Engine) (id : CallerId) (call : Call) :
    (e.call id call).pollers = e.pollers := by
  cases call with
  | submit request limit =>
    cases limit with
    | none => exact pollers_submit _ _ _ _
    | some d => exact pollers_submitWithin _ _ _ _ _ _
  | submitLate request d ago looks => exact pollers_submitWithin _ _ _ _ _ _
  | job kind unit mode =>
    simp only [Engine.call]
    split
    · exact pollers_submit _ _ _ _
    · rfl
  | pendingJobs =>
    simp only [Engine.call]
    split <;> rfl
  | listUnits => rfl
  | add s unit => exact pollers_operateOn _ _ _ _
  | remove s unit => exact pollers_operateOn _ _ _ _
  | contains s unit =>
    simp only [Engine.call]
    split <;> rfl
  | members s => rfl
  | attach s values faults refusal => rfl
  | close s => rfl
  | subscribe unit values refusal =>
    simp only [Engine.call]
    split <;> rfl
  | references unit =>
    simp only [Engine.call]
    split <;> rfl

@[simp] theorem pollers_noteCall (e : Engine) : e.noteCall.pollers = e.pollers := by
  unfold noteCall
  split <;> rfl

@[simp] theorem pollers_askTargets (e : Engine) : e.askTargets.pollers = e.pollers := by
  unfold askTargets
  split <;> rfl

@[simp] theorem pollers_deliver (e : Engine) (parcel : Parcel Update) (targets : List FeedId) :
    (e.deliver parcel targets).pollers = e.pollers := by
  unfold deliver
  split
  · rfl
  · dsimp only
    split
    · rfl
    · split <;> rfl

theorem pollers_cancel {feed : FeedId} (h : e.cancel? feed = some e') :
    e'.pollers = e.pollers := by
  unfold cancel? at h
  split at h
  · cases h
    rfl
  · cases h
    rfl
  · cases h

theorem pollers_onFeed {feed : FeedId} {lane : Lane} {f : Feed Update → Option (Feed Update)}
    (h : e.onFeed? feed lane f = some e') : e'.pollers = e.pollers := by
  unfold onFeed? at h
  split at h
  · obtain ⟨feed', -, rfl⟩ := Option.map_eq_some_iff.1 h
    rfl
  · cases h

theorem pollers_look (h : e.look? = some e') : e'.pollers = e.pollers := by
  unfold look? at h
  split at h
  · cases h
    rfl
  · cases h

theorem pollers_unblock (h : e.unblock? = some e') : e'.pollers = e.pollers := by
  unfold unblock? at h
  split at h
  · split at h
    · cases h
    · cases h
      rfl
  · cases h

theorem get?_afterPoll (e : Engine) (i : PollerId) (p : Poller) (id : PollerId) :
    (e.afterPoll i p).pollers.get? id = if id = i then some p else e.pollers.get? id := by
  have hp : (e.putPoller i p).pollers.get? id = _ := e.pollers.get?_put i p id
  unfold afterPoll
  dsimp only
  split
  · exact hp
  · split <;> exact hp

variable {id : PollerId} {p : Poller}

theorem poller_of_step {i : PollerId} {q q' : Poller} {event : Poller.Event}
    (hq : e.pollers.get? i = some q) (hs : q.step event = some q')
    (he : e'.pollers.get? id = if id = i then some q' else e.pollers.get? id)
    (hp : e.pollers.get? id = some p) :
    ∃ p', e'.pollers.get? id = some p' ∧
      p.run (if i = id then some event else none).toList = some p' := by
  rw [he]
  by_cases hi : i = id
  · subst hi
    rw [hp] at hq
    cases hq
    rw [if_pos rfl, if_pos rfl]
    exact ⟨q', rfl, (Poller.run_singleton p event).trans hs⟩
  · rw [if_neg (Ne.symm hi), if_neg hi]
    exact ⟨p, hp, rfl⟩

theorem poller_stepPoller {i : PollerId} {event : Poller.Event}
    (h : e.stepPoller? i event = some e') (hp : e.pollers.get? id = some p) :
    ∃ p', e'.pollers.get? id = some p' ∧
      p.run (if i = id then some event else none).toList = some p' := by
  unfold stepPoller? at h
  split at h
  · rename_i q hq
    obtain ⟨q', hs, rfl⟩ := Option.map_eq_some_iff.1 h
    exact poller_of_step hq hs (get?_afterPoll e i q' id) hp
  · cases h

theorem poller_onPoller {i : PollerId} {event : Poller.Event}
    (h : e.onPoller? i event = some e') (hp : e.pollers.get? id = some p) :
    ∃ p', e'.pollers.get? id = some p' ∧
      p.run (if i = id then some event else none).toList = some p' := by
  unfold onPoller? at h
  split at h
  · rename_i q hq
    obtain ⟨q', hs, rfl⟩ := Option.map_eq_some_iff.1 h
    exact poller_of_step hq hs (e.pollers.get?_put i q' id) hp
  · cases h

theorem isSome_step_scoped (q : Poller) (clock : Clock) (members : List String) :
    (q.step (.scoped clock members)).isSome = q.isScoping := by
  simp only [Poller.step, Poller.isScoping]
  split <;> rfl

theorem pollers_enter_poller {i : PollerId} {q : Poller} (h : e.pollers.get? i = some q)
    (tasks : List Task) :
    ({ e with queue := tasks }.enter (.poller i)).pollers =
      match q.step (.scoped e.clock (e.membersIn q.scope)) with
      | some q' => e.pollers.put i q'
      | none => e.pollers := by
  simp only [enter, h]
  have hm (members : List String) :
      (match q.step (.scoped e.clock members) with
        | some q' => { e with queue := tasks, pollers := e.pollers.put i q' }
        | none => { e with queue := tasks }).pollers =
      match q.step (.scoped e.clock members) with
      | some q' => e.pollers.put i q'
      | none => e.pollers := by
    cases q.step (.scoped e.clock members) <;> rfl
  cases q.scope <;> exact hm _

theorem poller_enter (task : Task) (hp : e.pollers.get? id = some p) :
    ∃ p', ({ e with queue := e.queue.erase task }.enter task).pollers.get? id = some p' ∧
      p.run (e.pollEvent? id (.grant task)).toList = some p' := by
  cases task with
  | caller c =>
    refine ⟨p, ?_, rfl⟩
    simp only [enter]
    split <;> simpa using hp
  | watcher feed =>
    refine ⟨p, ?_, rfl⟩
    simp only [enter]
    split <;> simpa using hp
  | dispatcher =>
    refine ⟨p, ?_, rfl⟩
    simp only [enter]
    split <;> exact hp
  | poller i =>
    cases hq : e.pollers.get? i with
    | none =>
      refine ⟨p, ?_, ?_⟩
      · simpa only [enter, hq] using hp
      · rw [pollEvent?, hq]
        rfl
    | some q =>
      have hstep := isSome_step_scoped q e.clock (e.membersIn q.scope)
      rw [pollers_enter_poller hq]
      cases hs : q.step (.scoped e.clock (e.membersIn q.scope)) with
      | some q' =>
        rw [hs] at hstep
        have hput : (e.putPoller i q').pollers.get? id = _ := e.pollers.get?_put i q' id
        obtain ⟨p', hp', hrun⟩ := poller_of_step hq hs hput hp
        refine ⟨p', hp', ?_⟩
        rw [pollEvent?, hq, Option.bind_some, ← hstep]
        exact hrun
      | none =>
        rw [hs] at hstep
        refine ⟨p, hp, ?_⟩
        rw [pollEvent?, hq, Option.bind_some, ← hstep]
        rfl

theorem poller_of_reaction {event : Event} (h : e.Reaction event e')
    (hp : e.pollers.get? id = some p) (hid : id < e.fresh) :
    ∃ p', e'.pollers.get? id = some p' ∧ p.run (e.pollEvent? id event).toList = some p' := by
  have hrest (hpollers : e'.pollers = e.pollers) (hn : e.pollEvent? id event = none) :
      ∃ p', e'.pollers.get? id = some p' ∧ p.run (e.pollEvent? id event).toList = some p' := by
    rw [hpollers, hn]
    exact ⟨p, hp, rfl⟩
  cases h with
  | call h => exact hrest (by simp) rfl
  | expire hw ht => exact hrest (by simp) rfl
  | leave h => exact hrest rfl rfl
  | poll h =>
    refine ⟨p, ?_, rfl⟩
    exact (e.pollers.get?_put _ _ _).trans ((if_neg (Nat.ne_of_lt hid)).trans hp)
  | openSet h => exact hrest rfl rfl
  | dropSet s => exact hrest rfl rfl
  | dropHandle => exact hrest rfl rfl
  | cancel h => exact hrest (pollers_cancel h) rfl
  | takeFeed h => exact hrest (pollers_onFeed h) rfl
  | takePoller h => exact poller_onPoller h hp
  | hangUpFeed h => exact hrest (pollers_onFeed h) rfl
  | hangUpPoller h => exact poller_onPoller h hp
  | tick passed shown => exact hrest rfl rfl
  | signal h => exact hrest rfl rfl
  | endSignals => exact hrest rfl rfl
  | jobReturned hs hr => exact hrest (by rw [pollers_dispatch]; rfl) rfl
  | matchReturned answer h => exact hrest (by rw [pollers_proceed]; rfl) rfl
  | listed result hw => exact hrest (by simp) rfl
  | @polled i result e' h => exact poller_stepPoller (e := e.note (.listed i result)) h hp
  | grant hh hq => exact poller_enter _ hp
  | arm => exact hrest rfl rfl
  | takeCommand hr => exact hrest (by simp) rfl
  | takeSignal hi hr => exact hrest (by rw [pollers_askTargets, pollers_dispatch]; rfl) rfl
  | deliver hs => exact hrest (by simp) rfl
  | look h => exact hrest (pollers_look h) rfl
  | unblock h => exact hrest (pollers_unblock h) rfl
  | stop h => exact hrest (by rw [pollers_dispatch]; rfl) rfl
  | unblockPoller h => exact poller_stepPoller h hp
  | wakePoller h => exact poller_stepPoller h hp

theorem poller_step {event : Event} (h : e.step event = some e')
    (hp : e.pollers.get? id = some p) (hid : id < e.fresh) :
    ∃ p', e'.pollers.get? id = some p' ∧ p.run (e.pollEvent? id event).toList = some p' := by
  obtain ⟨e₁, hr, he⟩ := reaction_of_step h
  have h₁ := poller_of_reaction hr hp hid
  obtain rfl | rfl := he <;> exact h₁

/-- In a run of the engine a poller makes a run of its own. -/
theorem poller_run {events : List Event} (h : e.run events = some e')
    (hp : e.pollers.get? id = some p) (hid : id < e.fresh) :
    ∃ p', e'.pollers.get? id = some p' ∧ p.run (e.pollEvents id events) = some p' := by
  induction events generalizing e p with
  | nil =>
    cases h
    exact ⟨p, hp, rfl⟩
  | cons event rest ih =>
    obtain ⟨e₁, hs, h⟩ := Option.bind_eq_some_iff.1 h
    obtain ⟨p₁, hp₁, hr₁⟩ := poller_step hs hp hid
    obtain ⟨p', hp', hr'⟩ := ih h hp₁ (Nat.lt_of_lt_of_le hid (fresh_le_of_step hs))
    refine ⟨p', hp', ?_⟩
    simp only [pollEvents, hs]
    rw [Poller.run_append, hr₁]
    exact hr'

theorem poller_of_poll {interval : Duration} {capacity : Nat}
    {isChanged : UnitStatus → UnitStatus → Bool} {scope : Scope}
    (h : e.step (.poll interval capacity isChanged scope) = some e') :
    e'.pollers.get? e.fresh = some (.start interval capacity isChanged scope) ∧
      e.fresh < e'.fresh := by
  have hput := e.pollers.get?_put_self e.fresh (.start interval capacity isChanged scope)
  obtain ⟨e₁, hr, he⟩ := reaction_of_step h
  cases hr with
  | poll hp =>
    obtain rfl | rfl := he
    · exact ⟨hput, Nat.lt_succ_self _⟩
    · exact ⟨hput, Nat.lt_succ_self _⟩

/-- While somebody listens on the channel of changes, a poller has put one message on it for each
listing that has succeeded and for no other reason; only the last of these listings may still have
to be looked at, with the members of a set that the registry is to tell. Applied to an empty view
one after the other, the messages lead to the units of the last listing, with nothing about them
that the predicate would report. -/
theorem run_mirrors_listings {e₀ e₁ e : Engine} {interval : Duration} {capacity : Nat}
    {isChanged : UnitStatus → UnitStatus → Bool} {scope : Scope} {events : List Event}
    (hs : e₀.step (.poll interval capacity isChanged scope) = some e₁)
    (hr : e₁.run events = some e) (hrefl : ∀ s, isChanged s s = false)
    (htrans : ∀ a b c, isChanged a b = false → isChanged b c = false → isChanged a c = false) :
    ∃ p, e.pollers.get? e₀.fresh = some p ∧ (p.feed.values.listening = true →
      let noticed := e₁.pollEvents e₀.fresh events
      let messages := (Poller.start interval capacity isChanged scope).received noticed ++
        p.feed.values.queue
      let listings := scope.views (Poller.listings noticed) (Poller.memberships noticed)
      messages.length = listings.length ∧
      (Poller.listings noticed).length = messages.length + p.unscoped.length ∧
      ∀ n rows, listings[n]? = some rows →
        let view := Snapshot.replay (messages.take (n + 1))
        (∀ k, (Snapshot.ofRows rows).get? k = rows.reverse.find? fun s => k == s.name) ∧
        Snapshot.Mirrors isChanged view (.ofRows rows) ∧
        (isChanged = UnitStatus.differs → ∀ k status listed, view.get? k = some status →
          (Snapshot.ofRows rows).get? k = some listed →
          status.name = listed.name ∧ status.description = listed.description ∧
            status.load = listed.load ∧ status.active = listed.active ∧
            status.sub = listed.sub) ∧
        ((isChanged = fun a b => decide (a ≠ b)) →
          ∀ k, view.get? k = (Snapshot.ofRows rows).get? k)) := by
  obtain ⟨hstart, hlt⟩ := poller_of_poll hs
  obtain ⟨p, hp, hrun⟩ := poller_run hr hstart hlt
  refine ⟨p, hp, fun hl => ?_⟩
  intro noticed messages listings
  obtain ⟨hm, hlen⟩ := Poller.run_start_messages hrun hl
  have hm : messages = Snapshot.diffs isChanged (listings.map .ofRows) := hm
  have hcount : messages.length = listings.length := by
    rw [hm, Snapshot.diffs, Snapshot.length_diffsFrom, List.length_map]
  refine ⟨hcount, hcount ▸ hlen, fun n rows hn => ?_⟩
  intro view
  have hview : Snapshot.Mirrors isChanged view (.ofRows rows) := by
    have hn : (listings.map Snapshot.ofRows)[n]? = some (.ofRows rows) := by
      rw [List.getElem?_map, hn, Option.map_some]
    have hmirrors := Snapshot.mirrors_replay hrefl htrans hn
    rwa [← hm] at hmirrors
  refine ⟨Snapshot.get?_ofRows rows, hview, ?_, ?_⟩
  · rintro rfl k status listed hstatus hlisted
    exact (UnitStatus.differs_eq_false_iff status listed).1
      (hview.unchanged k status listed hstatus hlisted)
  · intro hall k
    refine hview.get?_eq (fun a b hab => ?_) k
    rw [hall] at hab
    exact of_decide_eq_true (by simpa using hab)

/-- A set with one unit. -/
def watched : List Event :=
  [.openSet, .call (.add 0 "a.service"), .grant (.caller 1), .matchReturned (.ok ())]

/-- A listing with a name that comes twice, a failure, and a listing after the only unit of the set
was replaced by another one. The consumer takes the first message only. -/
def replaced : List Event :=
  [.wakePoller 2, .listReturned (.poller 2) (.ok [.ofStates "a.service" .loaded .inactive,
      .ofStates "b.service" .loaded .active, .ofStates "a.service" .loaded .active]),
    .grant (.poller 2), .take (.poller 2) .values, .tick 10 10, .wakePoller 2,
    .listReturned (.poller 2) (.error (.ioError "bus")), .tick 10 10, .wakePoller 2,
    .call (.add 0 "b.service"), .grant (.caller 3), .matchReturned (.ok ()),
    .call (.remove 0 "a.service"), .grant (.caller 4), .matchReturned (.ok ()),
    .listReturned (.poller 2) (.ok [.ofStates "a.service" .loaded .active,
      .ofStates "b.service" .loaded .active]), .grant (.poller 2)]

theorem run_mirrors_listings_replaced :
    ∃ e₀ e₁ e p, (Engine.start 1 .exact).run watched = some e₀ ∧
      e₀.step (.poll ⟨10⟩ 4 UnitStatus.differs (.membersOf 0)) = some e₁ ∧
      e₁.run replaced = some e ∧ e.pollers.get? e₀.fresh = some p ∧
      p.feed.values.listening = true ∧
      Snapshot.Mirrors UnitStatus.differs
        (Snapshot.replay (((Poller.start ⟨10⟩ 4 UnitStatus.differs (.membersOf 0)).received
          (e₁.pollEvents e₀.fresh replaced) ++ p.feed.values.queue).take 2))
        (.ofRows [.ofStates "b.service" .loaded .active]) := by
  let e₀ := ((Engine.start 1 .exact).run watched).get (by decide +kernel)
  let e₁ := (e₀.step (.poll ⟨10⟩ 4 UnitStatus.differs (.membersOf 0))).get (by decide +kernel)
  let e := (e₁.run replaced).get (by decide +kernel)
  have hs : e₀.step (.poll ⟨10⟩ 4 UnitStatus.differs (.membersOf 0)) = some e₁ :=
    (Option.some_get _).symm
  have hr : e₁.run replaced = some e := (Option.some_get _).symm
  obtain ⟨p, hp, h⟩ := run_mirrors_listings hs hr UnitStatus.differs_self UnitStatus.differs_trans
  have hl : p.feed.values.listening = true := by
    have hl : (e.pollers.get? e₀.fresh).map (fun p => p.feed.values.listening) = some true := by
      decide +kernel
    rw [hp] at hl
    exact Option.some.inj hl
  have hlisting : ((Scope.membersOf 0).views (Poller.listings (e₁.pollEvents e₀.fresh replaced))
      (Poller.memberships (e₁.pollEvents e₀.fresh replaced)))[1]? =
        some [.ofStates "b.service" .loaded .active] := by
    decide +kernel
  exact ⟨e₀, e₁, e, p, (Option.some_get _).symm, hs, hr, hp, hl, ((h hl).2.2 1 _ hlisting).2.1⟩

end UnitControl.Engine
