import UnitControl.Proofs.Channel
import UnitControl.Proofs.Engine.Answers
import UnitControl.Proofs.Registry.Targets

/-!
# The mail of an engine

What deliveries are about: how far the dispatcher has come with a parcel, the signals before it, and
the boxes of the feeds. A step of the engine leaves the mail alone, or changes it in one of a few
ways.
-/

namespace UnitControl

/-- How far the dispatcher has come with a parcel. A send that waits is over as far as the parcel is
concerned: it is in the box. -/
inductive Position
  | free
  | collecting (parcel : Parcel Update)
  | sending (parcel : Parcel Update) (targets : List FeedId)
  | stopped

def Stage.position : Stage → Position
  | idle | calling .. => .free
  | collecting parcel => .collecting parcel
  | sending parcel targets | blocked parcel _ targets _ => .sending parcel targets
  | stopped => .stopped

def Position.isServing : Position → Bool
  | collecting _ | sending .. => true
  | free | stopped => false

/-- Where the dispatcher is after it has taken an item. -/
def Position.after (item : Except Error Signal) : Position :=
  match Signal.parcel? item with
  | some parcel => .collecting parcel
  | none => .free

theorem Position.after_ne_stopped (item : Except Error Signal) :
    Position.after item ≠ .stopped := by
  unfold after
  split <;> simp

structure Mail where
  fresh : Nat
  position : Position
  signals : List (Except Error Signal)
  boxes : FeedId → Option (Box Update)

namespace Mail

def setBox (m : Mail) (feed : FeedId) (box : Box Update) : Mail :=
  { m with boxes := Function.update m.boxes feed (some box) }

end Mail

namespace Event

def arrival? : Event → Option (Except Error Signal)
  | signal item => some item
  | _ => none

def pickup? : Event → Option (FeedId × Lane)
  | take (.feed feed) lane => some (feed, lane)
  | _ => none

/-- Whether an event uses up a number. -/
def numbers : Event → Bool
  | call _ | poll .. | openSet => true
  | _ => false

end Event

namespace Engine

def mail (e : Engine) : Mail where
  fresh := e.fresh
  position := e.dispatcher.stage.position
  signals := e.dispatcher.signals
  boxes feed := (e.outlets.get? feed).map fun o => o.feed.box

variable {e e' : Engine}

theorem hasStopped_iff_position :
    e.dispatcher.hasStopped = true ↔ e.mail.position = .stopped := by
  simp only [Dispatcher.hasStopped, mail]
  cases e.dispatcher.stage <;> simp [Stage.position]

theorem position_idle (h : e.dispatcher.stage = .idle) : e.mail.position = .free :=
  congrArg Stage.position h

theorem position_sending {parcel : Parcel Update} {targets : List FeedId}
    (h : e.dispatcher.stage = .sending parcel targets) :
    e.mail.position = .sending parcel targets :=
  congrArg Stage.position h

theorem box_of_outlet {feed : FeedId} {o : Outlet} (ho : e.outlets.get? feed = some o) :
    e.mail.boxes feed = some o.feed.box := by simp [mail, ho]

theorem mail_putOutlet (e : Engine) (feed : FeedId) (o : Outlet) :
    { e with outlets := e.outlets.put feed o }.mail = e.mail.setBox feed o.feed.box := by
  have hb : ∀ f, ((e.outlets.put feed o).get? f).map (fun o => o.feed.box) =
      Function.update e.mail.boxes feed (some o.feed.box) f := by
    intro f
    rw [Table.get?_put, Function.update_apply]
    split <;> rfl
  simp only [mail, Mail.setBox, Mail.mk.injEq, true_and]
  exact funext hb

theorem mail_modifyOutlet (e : Engine) (feed : FeedId) {f : Outlet → Outlet}
    (hf : ∀ o, (f o).feed.box = o.feed.box) :
    { e with outlets := e.outlets.modify feed f }.mail = e.mail := by
  have hb : ∀ g, ((e.outlets.modify feed f).get? g).map (fun o => o.feed.box) =
      (e.outlets.get? g).map fun o => o.feed.box := by
    intro g
    rw [Table.get?_modify]
    split
    · rw [Option.map_map]
      exact Option.map_congr fun o _ => hf o
    · rfl
  simp only [mail, Mail.mk.injEq, true_and]
  exact funext hb

@[simp] theorem mail_note (e : Engine) (entry : Entry) : (e.note entry).mail = e.mail := rfl

@[simp] theorem mail_enlist (e : Engine) (task : Task) : (e.enlist task).mail = e.mail := rfl

@[simp] theorem mail_await (e : Engine) (id : CallerId) (w : Wait) : (e.await id w).mail = e.mail :=
  rfl

@[simp] theorem mail_send (e : Engine) (c : Command) : (e.send c).mail = e.mail := rfl

@[simp] theorem mail_answer (e : Engine) (id : CallerId) (a : Answer) :
    (e.answer id a).mail = e.mail := by
  unfold answer
  split <;> rfl

theorem mail_dispatch (e : Engine) (r : Dispatcher × List Reply) :
    (e.dispatch r).mail = { e with dispatcher := r.1 }.mail := by
  let d := { e with dispatcher := r.1 }
  exact answerAll_induct (I := fun x => x.mail = d.mail) rfl fun x reply _ h =>
    (mail_answer x reply.1 reply.2).trans h

@[simp] theorem mail_setWatch (e : Engine) (feed : FeedId) (w : Watch) :
    (e.setWatch feed w).mail = e.mail :=
  mail_modifyOutlet e feed fun _ => rfl

@[simp] theorem mail_closeFeed (e : Engine) (feed : FeedId) : (e.closeFeed feed).mail = e.mail :=
  mail_modifyOutlet e feed (f := fun o => { o with feed := o.feed.close }) fun o =>
    o.feed.box_close

@[simp] theorem mail_abandon (e : Engine) (feed : Option FeedId) :
    (e.abandon feed).mail = e.mail := by
  cases feed <;> simp [abandon]

@[simp] theorem mail_startWatch (e : Engine) (feed : FeedId) :
    (e.startWatch feed).mail = e.mail := by
  unfold startWatch
  split <;> simp

@[simp] theorem mail_conclude (e : Engine) (caller : CallerId) (op : Registry.Operation)
    (finish : Finish) (result : Except Error Unit) :
    (e.conclude caller op finish result).mail = e.mail := by
  unfold conclude
  cases result with
  | error err => simp
  | ok u =>
    cases finish with
    | answer => simp
    | watch => cases op.newcomer? <;> simp
    | undo next cause =>
      cases op.newcomer? with
      | none => rfl
      | some feed => exact mail_setWatch e feed .over
    | fail cause => simp

@[simp] theorem mail_finish (e : Engine) (task : Task) (result : Except Error Unit) :
    (e.finish task result).mail = e.mail := by
  unfold finish
  split
  · split <;> simp
  · split <;> simp
  · rfl
  · rfl

@[simp] theorem mail_proceed (e : Engine) (task : Task) (r : Registry × Registry.Progress) :
    (e.proceed task r).mail = e.mail := by
  unfold proceed
  split
  · exact mail_finish _ _ _
  · rfl

@[simp] theorem mail_operate (e : Engine) (task : Task) (op : Registry.Operation) :
    (e.operate task op).mail = e.mail := by
  unfold operate
  cases e.registry.closes op <;> simp

theorem mail_putPoller (e : Engine) (id : PollerId) (p : Poller) :
    (e.putPoller id p).mail = e.mail := rfl

@[simp] theorem mail_afterPoll (e : Engine) (id : PollerId) (p : Poller) :
    (e.afterPoll id p).mail = e.mail := by
  unfold afterPoll
  dsimp only
  split
  · rfl
  · split <;> rfl

theorem mail_stepPoller {id : PollerId} {event : Poller.Event}
    (h : e.stepPoller? id event = some e') : e'.mail = e.mail := by
  unfold stepPoller? at h
  split at h
  · obtain ⟨p, -, rfl⟩ := Option.map_eq_some_iff.1 h
    exact mail_afterPoll e id p
  · cases h

theorem mail_onPoller {id : PollerId} {event : Poller.Event}
    (h : e.onPoller? id event = some e') : e'.mail = e.mail := by
  unfold onPoller? at h
  split at h
  · obtain ⟨p, -, rfl⟩ := Option.map_eq_some_iff.1 h
    rfl
  · cases h

theorem mail_cancel {feed : FeedId} (h : e.cancel? feed = some e') : e'.mail = e.mail := by
  unfold cancel? at h
  split at h
  · cases h
    exact mail_setWatch e feed _
  · cases h
    exact mail_setWatch e feed _
  · cases h

theorem mail_enter (e : Engine) {task : Task} (h : task ≠ .dispatcher) :
    (e.enter task).mail = e.mail := by
  cases task with
  | caller id =>
    simp only [enter]
    split <;> simp
  | watcher feed =>
    simp only [enter]
    split <;> simp
  | dispatcher => exact absurd rfl h
  | poller id =>
    simp only [enter]
    split
    · split
      · exact mail_putPoller e id _
      · rfl
    · rfl

@[simp] theorem mail_submit (e : Engine) (id : CallerId) (request : JobRequest)
    (limit : Option (Nat × Error)) : (e.submit id request limit).mail = e.mail := by
  unfold submit
  split <;> rfl

theorem mail_submitWithin (e : Engine) (id : CallerId) (request : JobRequest) (d : Duration)
    (ago : Nat) (looks : Bool) : (e.submitWithin id request d ago looks).mail = e.mail := by
  obtain ⟨err, -, h⟩ | ⟨deadline, h⟩ := submitWithin_cases e id request d ago looks
  · rw [h]
    rfl
  · rw [h, mail_submit]

@[simp] theorem mail_operateOn (e : Engine) (id : CallerId) (unit : String)
    (op : String → Registry.Operation) : (e.operateOn id unit op).mail = e.mail := by
  unfold operateOn
  split <;> rfl

theorem mail_openFeed (e : Engine) (feed : FeedId) (values faults : Nat)
    (ending : Registry.Operation) :
    (e.openFeed feed values faults ending).mail = e.mail.setBox feed .new := by
  rw [openFeed, mail_putOutlet, Feed.box_ofCapacities]

@[simp] theorem mail_operateLater (e : Engine) (id : CallerId) (op : Registry.Operation)
    (finish : Finish) : (e.operateLater id op finish).mail = e.mail := rfl

theorem mail_attach (e : Engine) (id : CallerId) (s : SetId) (values faults : Nat)
    (refusal : Option String) :
    (e.call id (.attach s values faults refusal)).mail = e.mail.setBox id .new := by
  simp only [Engine.call, mail_operateLater, mail_openFeed]

theorem mail_subscribe (e : Engine) (id : CallerId) (unit : String) (values : Nat)
    (refusal : Option String) :
    (e.call id (.subscribe unit values refusal)).mail = e.mail.setBox id .new := by
  simp only [Engine.call]
  split <;> simp only [mail_operateLater, mail_note, mail_abandon, mail_openFeed]

theorem mail_call (e : Engine) (id : CallerId) (call : Call) :
    (e.call id call).mail = e.mail ∨ (e.call id call).mail = e.mail.setBox id .new := by
  cases call with
  | submit request limit =>
    cases limit with
    | none => exact .inl (mail_submit e id request none)
    | some d => exact .inl (mail_submitWithin e id request d 0 false)
  | submitLate request d ago looks => exact .inl (mail_submitWithin e id request d ago looks)
  | job kind unit mode =>
    simp only [Engine.call]
    split <;> simp
  | pendingJobs =>
    simp only [Engine.call]
    split <;> simp
  | listUnits => exact .inl rfl
  | add s unit => exact .inl (mail_operateOn _ _ _ _)
  | remove s unit => exact .inl (mail_operateOn _ _ _ _)
  | contains s unit =>
    simp only [Engine.call]
    split <;> exact .inl rfl
  | members s => exact .inl rfl
  | attach s values faults refusal => exact .inr (mail_attach e id s values faults refusal)
  | close s => exact .inl rfl
  | subscribe unit values refusal => exact .inr (mail_subscribe e id unit values refusal)
  | references unit =>
    simp only [Engine.call]
    split <;> exact .inl rfl

@[simp] theorem mail_askTargets (e : Engine) : e.askTargets.mail = e.mail := by
  unfold askTargets
  split <;> rfl

@[simp] theorem mail_noteCall (e : Engine) : e.noteCall.mail = e.mail := by
  unfold noteCall
  split <;> rfl

/-- What an event can make of the mail. -/
inductive Shift (e : Engine) : Event → Mail → Prop
  | rest {event : Event} (ha : event.arrival? = none) (hp : event.pickup? = none)
      (hn : event.numbers = false) : Shift e event e.mail
  | number {event : Event} (hn : event.numbers = true) :
      Shift e event { e.mail with fresh := e.fresh + 1 }
  | openFeed (call : Call) :
      Shift e (.call call) ({ e.mail with fresh := e.fresh + 1 }.setBox e.fresh .new)
  | arrive (item : Except Error Signal) :
      Shift e (.signal item)
        { e.mail with signals := if e.dispatcher.hasStopped then e.dispatcher.signals
          else e.dispatcher.signals ++ [item] }
  | takeSignal {item : Except Error Signal} {rest : List (Except Error Signal)}
      (hs : e.dispatcher.stage = .idle) (hi : e.dispatcher.signals = item :: rest) :
      Shift e .takeSignal { e.mail with signals := rest, position := .after item }
  | collect {parcel : Parcel Update} (hs : e.dispatcher.stage = .collecting parcel) :
      Shift e (.grant .dispatcher)
        { e.mail with position := .sending parcel (e.registry.targets parcel) }
  | finish {parcel : Parcel Update} (hs : e.dispatcher.stage = .sending parcel []) :
      Shift e .deliver { e.mail with position := .free }
  | deliver {parcel : Parcel Update} {feed : FeedId} {rest : List FeedId} {o : Outlet}
      (hs : e.dispatcher.stage = .sending parcel (feed :: rest))
      (ho : e.outlets.get? feed = some o) (ha : o.feed.accepts parcel.lane = true) :
      Shift e .deliver
        ({ e.mail with position := .sending parcel rest }.setBox feed (o.feed.box.add parcel))
  | skip {parcel : Parcel Update} {feed : FeedId} {rest : List FeedId}
      (hs : e.dispatcher.stage = .sending parcel (feed :: rest))
      (ho : ∀ o, e.outlets.get? feed = some o → o.feed.accepts parcel.lane = false) :
      Shift e .deliver { e.mail with position := .sending parcel rest }
  | take {feed : FeedId} {lane : Lane} {o : Outlet} {parcel : Parcel Update}
      {rest : List (Parcel Update)} (ho : e.outlets.get? feed = some o)
      (hq : o.feed.queued lane = parcel :: rest) :
      Shift e (.take (.feed feed) lane) (e.mail.setBox feed (o.feed.box.setQueue lane rest))
  | hangUp {feed : FeedId} {o : Outlet} (lane : Lane) (ho : e.outlets.get? feed = some o) :
      Shift e (.hangUp (.feed feed) lane) (e.mail.setBox feed (o.feed.box.hangUp lane))
  | stop (hs : e.dispatcher.stage = .idle) :
      Shift e .stop { e.mail with signals := [], position := .stopped }

theorem Shift.of_eq {event : Event} (ha : event.arrival? = none) (hp : event.pickup? = none)
    (hn : event.numbers = false) (h : e'.mail = e.mail) : e.Shift event e'.mail := by
  rw [h]
  exact .rest ha hp hn

theorem position_rouse (d : Dispatcher) : d.rouse.stage.position = d.stage.position := by
  unfold Dispatcher.rouse
  split
  · rename_i hs
    simp only [hs, Stage.position]
  · rfl

theorem signals_rouse (d : Dispatcher) : d.rouse.signals = d.signals := by
  unfold Dispatcher.rouse
  split <;> rfl

theorem mail_rouse (e : Engine) : { e with dispatcher := e.dispatcher.rouse }.mail = e.mail := by
  simp only [mail, position_rouse, signals_rouse]

theorem mail_startle (e : Engine) :
    { e with dispatcher := e.dispatcher.startle }.mail = e.mail := e.mail_rouse

theorem mail_onFeed {feed : FeedId} {lane : Lane} {f : Feed Update → Option (Feed Update)}
    (h : e.onFeed? feed lane f = some e') :
    ∃ o feed', e.outlets.get? feed = some o ∧ f o.feed = some feed' ∧
      e'.mail = e.mail.setBox feed feed'.box := by
  unfold onFeed? at h
  split at h
  · rename_i o ho
    obtain ⟨feed', hf, rfl⟩ := Option.map_eq_some_iff.1 h
    refine ⟨o, feed', ho, hf, ?_⟩
    have hput := mail_putOutlet e feed { o with feed := feed' }
    split
    · exact (mail_rouse { e with outlets := _ }).trans hput
    · exact hput
  · cases h

theorem shift_call (call : Call) :
    e.Shift (.call call) ({ e with fresh := e.fresh + 1 }.call e.fresh call).mail := by
  obtain h | h := mail_call { e with fresh := e.fresh + 1 } e.fresh call
  · rw [h]
    exact .number rfl
  · rw [h]
    exact .openFeed call

theorem shift_enter (task : Task) :
    e.Shift (.grant task) ({ e with queue := e.queue.erase task }.enter task).mail := by
  by_cases ht : task = .dispatcher
  · subst ht
    simp only [enter]
    split
    · rename_i parcel hs
      exact .collect hs
    · exact .of_eq rfl rfl rfl rfl
  · exact .of_eq rfl rfl rfl (mail_enter { e with queue := _ } ht)

theorem mail_takeCommand {r : Dispatcher × List Reply} (h : e.dispatcher.takeCommand? = some r) :
    { e with dispatcher := r.1 }.mail = e.mail := by
  obtain ⟨hs, ⟨caller, request, rest, -, rfl⟩ | ⟨caller, rest, -, rfl⟩⟩ :=
    Dispatcher.takeCommand_cases h
  · simp only [mail, hs, Stage.position]
  · rfl

theorem mail_called {c : CallerId} {request : JobRequest} {result : Except Error String}
    {r : Dispatcher × List Reply} (hs : e.dispatcher.stage = .calling c request)
    (hr : e.dispatcher.called? result = some r) :
    ((e.note (.jobReturned c result)).dispatch r).mail = e.mail := by
  rw [mail_dispatch]
  obtain ⟨err, -, rfl⟩ | ⟨path, -, rfl⟩ := Dispatcher.called_cases hs hr <;>
    simp only [mail, note, hs, Stage.position]

theorem position_route {d : Dispatcher} (hs : d.stage = .idle) (item : Except Error Signal) :
    (d.route item).1.stage.position = .after item ∧ (d.route item).1.signals = d.signals := by
  cases item with
  | error err => exact ⟨rfl, rfl⟩
  | ok signal =>
    simp only [Dispatcher.route, Position.after, Signal.parcel?]
    cases signal with
    | jobRemoved id job unit result =>
      simp only [Signal.completion?, Signal.update?, Dispatcher.resolve, Option.map_none]
      split <;> simp [hs, Stage.position]
    | unitNew unit path => exact ⟨rfl, rfl⟩
    | other interface member => simp [Signal.completion?, Signal.update?, hs, Stage.position]
    | propertiesChanged path interface changed invalidated =>
      simp only [Signal.completion?]
      cases (Signal.propertiesChanged path interface changed invalidated).update? with
      | none => simp [hs, Stage.position]
      | some u => exact ⟨rfl, rfl⟩

theorem shift_takeSignal {item : Except Error Signal} {rest : List (Except Error Signal)}
    {r : Dispatcher × List Reply} (hi : e.dispatcher.signals = item :: rest)
    (hr : e.dispatcher.takeSignal? = some r) :
    e.Shift .takeSignal ((e.note (.tookSignal item)).dispatch r).askTargets.mail := by
  rw [mail_askTargets, mail_dispatch]
  unfold Dispatcher.takeSignal? at hr
  split at hr
  · rename_i item' rest' hs hi'
    cases hr
    cases hi.symm.trans hi'
    obtain ⟨hp, hq⟩ := position_route (d := { e.dispatcher with signals := rest }) hs item
    have hm : { e.note (.tookSignal item) with
        dispatcher := ({ e.dispatcher with signals := rest }.route item).1 }.mail =
          { e.mail with signals := rest, position := .after item } := by
      simp only [mail, note, hp, hq]
    rw [hm]
    exact .takeSignal hs hi
  · cases hr

theorem shift_deliver {parcel : Parcel Update} {targets : List FeedId}
    (hs : e.dispatcher.stage = .sending parcel targets) :
    e.Shift .deliver (e.deliver parcel targets).mail := by
  cases targets with
  | nil => exact .finish hs
  | cons feed rest =>
    simp only [deliver]
    split
    · rename_i ho
      exact .skip hs fun o ho' => by simp [ho] at ho'
    · rename_i o ho
      split
      · rename_i ha
        have hm (s : Stage) (hp : s.position = .sending parcel rest) :
            { e with
              outlets := e.outlets.put feed { o with feed := o.feed.send parcel }
              dispatcher := { e.dispatcher with stage := s } }.mail =
            { e.mail with position := .sending parcel rest }.setBox feed
              (o.feed.box.add parcel) := by
          have hput := mail_putOutlet { e with dispatcher := { e.dispatcher with stage := s } }
            feed { o with feed := o.feed.send parcel }
          refine hput.trans ?_
          rw [Feed.box_send ha]
          simp only [mail, hp]
        split
        · have hd := Shift.deliver hs ho ha
          rw [← hm (.blocked parcel feed rest false) rfl] at hd
          exact hd
        · have hd := Shift.deliver hs ho ha
          rw [← hm (.sending parcel rest) rfl] at hd
          exact hd
      · rename_i ha
        refine .skip hs fun o' ho' => ?_
        cases ho.symm.trans ho'
        simpa using ha

theorem mail_look (h : e.look? = some e') : e'.mail = e.mail := by
  unfold look? at h
  split at h
  · rename_i hs
    cases h
    simp only [mail, hs]
    split <;> rfl
  · cases h

theorem mail_unblock (h : e.unblock? = some e') : e'.mail = e.mail := by
  unfold unblock? at h
  split at h
  · rename_i hs
    split at h
    · cases h
    · cases h
      simp only [mail, hs, Stage.position]
  · cases h

theorem shift_of_reaction {event : Event} (h : e.Reaction event e') :
    e.Shift event e'.mail := by
  cases h with
  | @call call h => exact shift_call call
  | expire hw ht => exact .of_eq rfl rfl rfl (mail_answer _ _ _)
  | leave h => exact .of_eq rfl rfl rfl rfl
  | poll h => exact .number rfl
  | openSet h => exact .number rfl
  | dropSet s => exact .of_eq rfl rfl rfl rfl
  | dropHandle => exact .of_eq rfl rfl rfl rfl
  | cancel h => exact .of_eq rfl rfl rfl (mail_cancel h)
  | takeFeed h =>
    obtain ⟨o, feed', ho, hf, hm⟩ := mail_onFeed h
    obtain ⟨parcel, rest, hq, hb⟩ := Feed.box_take hf
    rw [hm, hb]
    exact .take ho hq
  | takePoller h => exact .of_eq rfl rfl rfl (mail_onPoller h)
  | @hangUpFeed feed lane e' h =>
    obtain ⟨o, feed', ho, hf, hm⟩ := mail_onFeed h
    cases hf
    rw [hm, Feed.box_hangUp]
    exact .hangUp lane ho
  | hangUpPoller h => exact .of_eq rfl rfl rfl (mail_onPoller h)
  | tick passed shown => exact .of_eq rfl rfl rfl rfl
  | @signal item h =>
    have hm : { e with dispatcher := e.dispatcher.receive item }.mail =
        { e.mail with signals := if e.dispatcher.hasStopped then e.dispatcher.signals
          else e.dispatcher.signals ++ [item] } := by
      simp only [mail, Dispatcher.receive]
      split <;> rfl
    rw [mail_note, hm]
    exact .arrive item
  | endSignals => exact .of_eq rfl rfl rfl rfl
  | jobReturned hs hr => exact .of_eq rfl rfl rfl (mail_called hs hr)
  | matchReturned answer h => exact .of_eq rfl rfl rfl (mail_proceed _ _ _)
  | listed result hw => exact .of_eq rfl rfl rfl (mail_answer _ _ _)
  | @polled id result e' h =>
    exact .of_eq rfl rfl rfl (mail_stepPoller (e := e.note (.listed id result)) h)
  | @grant task hh hq => exact shift_enter task
  | arm => exact .of_eq rfl rfl rfl rfl
  | takeCommand hr =>
    rw [mail_noteCall, mail_dispatch, mail_takeCommand hr]
    exact .rest rfl rfl rfl
  | takeSignal hi hr => exact shift_takeSignal hi hr
  | deliver hs => exact shift_deliver hs
  | look h => exact .of_eq rfl rfl rfl (mail_look h)
  | unblock h => exact .of_eq rfl rfl rfl (mail_unblock h)
  | stop h =>
    rw [mail_dispatch]
    exact .stop (Dispatcher.stage_of_mayStop h)
  | unblockPoller h => exact .of_eq rfl rfl rfl (mail_stepPoller h)
  | wakePoller h => exact .of_eq rfl rfl rfl (mail_stepPoller h)

theorem shift_step {event : Event} (h : e.step event = some e') : e.Shift event e'.mail := by
  obtain ⟨e₁, hr, rfl | rfl⟩ := reaction_of_step h
  · exact shift_of_reaction hr
  · rw [mail_startle]
    exact shift_of_reaction hr

end Engine

end UnitControl
