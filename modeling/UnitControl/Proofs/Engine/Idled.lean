import UnitControl.Proofs.Engine.Answers

/-!
# What others see of the dispatcher

Nothing that happens apart from the turns of the dispatcher depends on what it is doing, as long as
it has not stopped. So an engine whose dispatcher is idle instead does step by step what the engine
does.
-/

namespace UnitControl

def Stage.idled : Stage → Stage
  | stopped => stopped
  | _ => idle

/-- The events in which the dispatcher has its turn. -/
def Event.isOfDispatcher : Event → Bool
  | jobReturned _ | grant .dispatcher | arm | takeCommand | takeSignal | deliver | look | unblock
  | stop => true
  | _ => false

namespace Dispatcher

def idled (d : Dispatcher) : Dispatcher := { d with stage := d.stage.idled }

theorem hasStopped_idled (d : Dispatcher) : d.idled.hasStopped = d.hasStopped := by
  unfold hasStopped idled
  cases d.stage <;> rfl

theorem idled_rouse (d : Dispatcher) : d.rouse.idled = d.idled := by
  unfold rouse idled
  cases h : d.stage <;> simp [h, Stage.idled]

theorem rouse_idled (d : Dispatcher) : d.idled.rouse = d.idled := by
  unfold rouse idled
  cases d.stage <;> rfl

theorem startle_idled (d : Dispatcher) : d.idled.startle = d.startle.idled := by
  unfold startle
  rw [rouse_idled]
  exact congrArg (fun d : Dispatcher => { d with armed := false }) d.idled_rouse.symm

theorem idled_receive (d : Dispatcher) (item : Except Error Signal) :
    (d.receive item).idled = d.idled.receive item := by
  unfold receive
  rw [hasStopped_idled]
  split <;> rfl

end Dispatcher

namespace Engine

/-- The engine with a dispatcher that is idle, unless it has stopped. -/
def idled (e : Engine) : Engine := { e with dispatcher := e.dispatcher.idled }

variable (e : Engine)

@[simp] theorem clock_idled : e.idled.clock = e.clock := rfl

@[simp] theorem holder_idled : e.idled.holder = e.holder := rfl

@[simp] theorem registry_idled : e.idled.registry = e.registry := rfl

@[simp] theorem callers_idled : e.idled.callers = e.callers := rfl

@[simp] theorem outlets_idled : e.idled.outlets = e.outlets := rfl

@[simp] theorem pollers_idled : e.idled.pollers = e.pollers := rfl

@[simp] theorem hasStopped_idled : e.idled.dispatcher.hasStopped = e.dispatcher.hasStopped :=
  e.dispatcher.hasStopped_idled

theorem idled_answer (id : CallerId) (a : Answer) : (e.answer id a).idled = e.idled.answer id a :=
  apply_ite idled _ _ _

theorem idled_abandon (feed : Option FeedId) : (e.abandon feed).idled = e.idled.abandon feed := by
  cases feed <;> rfl

theorem idled_startWatch (feed : FeedId) : (e.startWatch feed).idled = e.idled.startWatch feed := by
  simp only [startWatch, outlets_idled]
  split <;> rfl

theorem idled_conclude (id : CallerId) (op : Registry.Operation) (finish : Finish)
    (result : Except Error Unit) :
    (e.conclude id op finish result).idled = e.idled.conclude id op finish result := by
  cases result with
  | error err => simp only [conclude, idled_answer, idled_abandon]
  | ok u =>
    cases finish with
    | answer => exact idled_answer e id _
    | watch =>
      simp only [conclude]
      cases op.newcomer? with
      | none => exact idled_answer e id _
      | some feed => exact (idled_startWatch _ feed).trans (by rw [idled_answer])
    | undo next cause =>
      simp only [conclude]
      cases op.newcomer? <;> rfl
    | fail cause => exact idled_answer e id _

theorem idled_finish (task : Task) (result : Except Error Unit) :
    (e.finish task result).idled = e.idled.finish task result := by
  cases task with
  | caller id =>
    simp only [finish, callers_idled]
    split
    · exact idled_conclude (e.note _) id _ _ result
    · rfl
  | watcher feed =>
    simp only [finish, outlets_idled]
    split <;> rfl
  | dispatcher => rfl
  | poller id => rfl

theorem idled_proceed (task : Task) (p : Registry × Registry.Progress) :
    (e.proceed task p).idled = e.idled.proceed task p := by
  obtain ⟨r, progress⟩ := p
  cases progress with
  | done result => exact idled_finish { e with registry := r } task result
  | ask call pause => rfl

theorem idled_operate (task : Task) (op : Registry.Operation) :
    (e.operate task op).idled = e.idled.operate task op := by
  simp only [operate, registry_idled]
  cases e.registry.closes op with
  | none => exact idled_proceed e task _
  | some feed => exact idled_proceed (e.closeFeed feed) task _

theorem idled_enter {task : Task} (h : task ≠ .dispatcher) :
    (e.enter task).idled = e.idled.enter task := by
  cases task with
  | caller id =>
    simp only [enter, callers_idled]
    split
    · exact idled_answer e id _
    · exact idled_operate e _ _
    · rfl
  | watcher feed =>
    simp only [enter, outlets_idled]
    split
    · exact idled_operate e _ _
    · rfl
  | dispatcher => exact absurd rfl h
  | poller id =>
    simp only [enter, pollers_idled, registry_idled, clock_idled]
    cases e.pollers.get? id with
    | none => rfl
    | some p =>
      dsimp only
      generalize p.step _ = next
      cases next <;> rfl

theorem idled_submit (id : CallerId) (request : JobRequest) (limit : Option (Nat × Error)) :
    (e.submit id request limit).idled = e.idled.submit id request limit := by
  simp only [submit, hasStopped_idled]
  split <;> rfl

theorem idled_submitWithin (id : CallerId) (request : JobRequest) (d : Duration) (ago : Nat)
    (looks : Bool) : (e.submitWithin id request d ago looks).idled =
      e.idled.submitWithin id request d ago looks := by
  simp only [submitWithin, clock_idled, apply_ite idled, idled_submit]
  rfl

theorem idled_operateOn (id : CallerId) (unit : String) (op : String → Registry.Operation) :
    (e.operateOn id unit op).idled = e.idled.operateOn id unit op := by
  unfold operateOn
  cases Name.canonical unit <;> rfl

theorem idled_call (id : CallerId) (call : Call) :
    (e.call id call).idled = e.idled.call id call := by
  cases call with
  | submit request limit =>
    cases limit with
    | none => exact idled_submit e id request none
    | some d => exact idled_submitWithin e id request d 0 false
  | submitLate request d ago looks => exact idled_submitWithin e id request d ago looks
  | job kind unit mode =>
    simp only [Engine.call]
    cases Name.canonical unit with
    | ok unit => exact idled_submit e id _ none
    | error fault => rfl
  | pendingJobs =>
    simp only [Engine.call, hasStopped_idled]
    split <;> rfl
  | add s unit => exact idled_operateOn e id unit _
  | remove s unit => exact idled_operateOn e id unit _
  | contains s unit =>
    simp only [Engine.call]
    cases Name.canonical unit <;> rfl
  | subscribe unit values refusal =>
    simp only [Engine.call]
    cases Name.canonical unit <;> rfl
  | references unit =>
    simp only [Engine.call]
    cases Name.canonical unit <;> rfl
  | _ => rfl

theorem idled_afterPoll (id : PollerId) (p : Poller) :
    (e.afterPoll id p).idled = e.idled.afterPoll id p := by
  unfold afterPoll
  cases p.isListing with
  | true => rfl
  | false => cases p.isScoping <;> rfl

theorem stepPoller_idled (id : PollerId) (event : Poller.Event) :
    e.idled.stepPoller? id event = (e.stepPoller? id event).map idled := by
  simp only [stepPoller?, pollers_idled]
  cases e.pollers.get? id with
  | none => rfl
  | some p =>
    rw [Option.map_map]
    exact Option.map_congr fun q _ => (idled_afterPoll e id q).symm

theorem onPoller_idled (id : PollerId) (event : Poller.Event) :
    e.idled.onPoller? id event = (e.onPoller? id event).map idled := by
  simp only [onPoller?, pollers_idled]
  cases e.pollers.get? id with
  | none => rfl
  | some p =>
    rw [Option.map_map]
    rfl

theorem onFeed_idled (feed : FeedId) (lane : Lane) (f : Feed Update → Option (Feed Update)) :
    e.idled.onFeed? feed lane f = (e.onFeed? feed lane f).map idled := by
  simp only [onFeed?, outlets_idled]
  cases e.outlets.get? feed with
  | none => rfl
  | some o =>
    rw [Option.map_map]
    refine Option.map_congr fun f' _ => ?_
    dsimp only [Function.comp, idled]
    cases o.feed.parked lane && !f'.parked lane with
    | true =>
      rw [if_pos rfl, if_pos rfl, Dispatcher.rouse_idled, Dispatcher.idled_rouse]
    | false => rfl

theorem cancel_idled (feed : FeedId) : e.idled.cancel? feed = (e.cancel? feed).map idled := by
  simp only [cancel?, outlets_idled]
  split <;> rfl

theorem expire_idled (id : CallerId) : e.idled.expire? id = (e.expire? id).map idled := by
  simp only [expire?, callers_idled, clock_idled]
  split
  · rw [apply_ite (Option.map idled), Option.map_some, idled_answer]
    rfl
  · rfl

theorem matchReturned_idled (result : Except Error Unit) :
    e.idled.matchReturned? result = (e.matchReturned? result).map idled := by
  simp only [matchReturned?, holder_idled, registry_idled]
  cases e.holder with
  | none => rfl
  | some holder =>
    let x := { e with holder := none }.note (.matchReturned holder.call result)
    exact congrArg some (idled_proceed x holder.task _).symm

theorem listReturned_idled (task : Task) (result : Except Error (List UnitStatus)) :
    e.idled.listReturned? task result = (e.listReturned? task result).map idled := by
  cases task with
  | caller id =>
    simp only [listReturned?, callers_idled]
    split
    · exact congrArg some (idled_answer e id _).symm
    · rfl
  | poller id => exact stepPoller_idled (e.note _) id _
  | watcher feed => rfl
  | dispatcher => rfl

theorem grant_idled {task : Task} (h : task ≠ .dispatcher) :
    e.idled.grant? task = (e.grant? task).map idled := by
  change (if (e.holder.isNone && e.queue.contains task) = true then _ else _) = _
  unfold grant?
  split
  · exact congrArg some (idled_enter { e with queue := e.queue.erase task } h).symm
  · rfl

theorem react_idled {event : Event} (h : event.isOfDispatcher = false) :
    e.idled.react event = (e.react event).map idled := by
  cases event with
  | call call =>
    simp only [react, apply_ite (Option.map idled), Option.map_some, Option.map_none, idled_call]
    rfl
  | expire id => exact expire_idled e id
  | leave id =>
    simp only [react, apply_ite (Option.map idled)]
    rfl
  | poll interval capacity isChanged scope =>
    simp only [react, apply_ite (Option.map idled)]
    rfl
  | openSet =>
    simp only [react, apply_ite (Option.map idled)]
    rfl
  | dropSet s => rfl
  | dropHandle => rfl
  | cancel feed => exact cancel_idled e feed
  | take source lane =>
    cases source with
    | feed feed => exact onFeed_idled e feed lane fun f => f.take? lane
    | poller id => exact onPoller_idled e id _
  | hangUp source lane =>
    cases source with
    | feed feed => exact onFeed_idled e feed lane fun f => some (f.hangUp lane)
    | poller id => exact onPoller_idled e id _
  | tick passed shown => rfl
  | signal item =>
    have hended : e.idled.dispatcher.ended = e.dispatcher.ended := rfl
    have hreceive :
        ({ e with dispatcher := e.dispatcher.receive item }.note (.arrived item)).idled =
          { e.idled with dispatcher := e.idled.dispatcher.receive item }.note (.arrived item) :=
      congrArg (fun d => { e with dispatcher := d }.note (.arrived item))
        (e.dispatcher.idled_receive item)
    simp only [react, apply_ite (Option.map idled), Option.map_some, Option.map_none, hended,
      hreceive]
  | endSignals => rfl
  | matchReturned result => exact matchReturned_idled e result
  | listReturned task result => exact listReturned_idled e task result
  | grant task =>
    refine grant_idled e ?_
    rintro rfl
    cases h
  | unblockPoller id => exact stepPoller_idled e id _
  | wakePoller id => exact stepPoller_idled e id _
  | _ => cases h

variable {e}

theorem step_idled {event : Event} (h : event.isOfDispatcher = false) :
    e.idled.step event = (e.step event).map idled := by
  rw [step, step, react_idled e h, Option.map_map, Option.map_map]
  refine Option.map_congr fun x _ => ?_
  have hstartle : { x.idled with dispatcher := x.idled.dispatcher.startle } =
      { x with dispatcher := x.dispatcher.startle }.idled :=
    congrArg (fun d => { x with dispatcher := d }) x.dispatcher.startle_idled
  simp only [Function.comp, apply_ite idled, hstartle]
  rfl

/-- A run in which the dispatcher has no turn is possible if it is possible with an idle
dispatcher, and leads to the same but for that. -/
theorem run_idled {events : List Event} (h : ∀ event ∈ events, event.isOfDispatcher = false) :
    e.idled.run events = (e.run events).map idled := by
  induction events generalizing e with
  | nil => rfl
  | cons event rest ih =>
    obtain ⟨hevent, hrest⟩ := List.forall_mem_cons.1 h
    rw [run, run, step_idled hevent, Option.bind_map, Option.map_bind]
    exact Option.bind_congr fun x _ => ih hrest

end Engine

end UnitControl
