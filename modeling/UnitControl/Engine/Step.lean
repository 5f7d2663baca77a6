import UnitControl.Engine.Call

/-!
# Steps of the engine

An event is a step of one task, or something that users, consumers or the bus do. A run is a list
of events, in any order in which each is possible when it comes.
-/

namespace UnitControl

/-- Where a consumer takes messages from. -/
inductive Source
  | feed (id : FeedId)
  | poller (id : PollerId)
  deriving DecidableEq, Repr

inductive Event
  /-- A user makes a call, as the caller with the next number. -/
  | call (call : Call)
  /-- A caller gives up. -/
  | expire (id : CallerId)
  /-- A caller that has its answer lets its handle go. -/
  | leave (id : CallerId)
  /-- A new polling subscription, which nothing prevents from being started. -/
  | poll (interval : Duration) (capacity : Nat) (isChanged : UnitStatus → UnitStatus → Bool)
      (scope : Scope)
  /-- A new set, with the next number. -/
  | openSet
  | dropSet (s : SetId)
  /-- The handle on the engine and those on all sets are given up. -/
  | dropHandle
  | cancel (feed : FeedId)
  /-- A consumer takes one message. -/
  | take (source : Source) (lane : Lane)
  /-- A consumer drops a receiving end. -/
  | hangUp (source : Source) (lane : Lane)
  /-- Time goes by, for the timers and on the clock that tasks read. The two agree but where the
  timers are put forward by hand. -/
  | tick (passed shown : Nat)
  /-- The bus delivers a signal, or something that cannot be decoded. -/
  | signal (item : Except Error Signal)
  | endSignals
  /-- The bus answers the call that the dispatcher has made. -/
  | jobReturned (result : Except Error String)
  /-- The bus answers the call of the task that holds the registry. -/
  | matchReturned (result : Except Error Unit)
  | listReturned (task : Task) (result : Except Error (List UnitStatus))
  /-- A task gets the registry. -/
  | grant (task : Task)
  /-- The dispatcher finds no command. -/
  | arm
  | takeCommand
  | takeSignal
  /-- The dispatcher serves the next feed, or is through with them. -/
  | deliver
  /-- The dispatcher was roused and looks again at the channel for which it waits. -/
  | look
  /-- The send for which the dispatcher waited is over. -/
  | unblock
  | stop
  | unblockPoller (id : PollerId)
  | wakePoller (id : PollerId)

namespace Engine

variable (e : Engine)

/-- Whether there is a handle to start a poller with. -/
def permitsPoll : Scope → Bool
  | .membersOf s => e.sets.contains s
  | .all | .named _ => e.handle

def putPoller (id : PollerId) (p : Poller) : Engine := { e with pollers := e.pollers.put id p }

/-- A poller that is to list asks the bus, one that is to look up its set waits for the
registry. -/
def afterPoll (id : PollerId) (p : Poller) : Engine :=
  let e := e.putPoller id p
  if p.isListing then e.note (.asked (.list (.poller id)))
  else if p.isScoping then e.enlist (.poller id)
  else e

def stepPoller? (id : PollerId) (event : Poller.Event) : Option Engine :=
  match e.pollers.get? id with
  | some p => (p.step event).map (e.afterPoll id ·)
  | none => none

def expire? (id : CallerId) : Option Engine :=
  match e.callers.get? id with
  | some (.job (some (deadline, err))) =>
    if deadline ≤ e.clock.now then some (e.answer id (.job (.error err))) else none
  | _ => none

def cancel? (feed : FeedId) : Option Engine :=
  match (e.outlets.get? feed).map Outlet.watch with
  | some (.expected false) => some (e.setWatch feed (.expected true))
  | some .watching => some ((e.setWatch feed .ending).enlist (.watcher feed))
  | _ => none

/-- What a consumer does with one lane of a feed. The end of a parked send wakes the sender, also
one that has gone on to another feed. -/
def onFeed? (feed : FeedId) (lane : Lane) (f : Feed Update → Option (Feed Update)) :
    Option Engine :=
  match e.outlets.get? feed with
  | some o => (f o.feed).map fun feed' =>
    { e with
      outlets := e.outlets.put feed { o with feed := feed' }
      dispatcher :=
        if o.feed.parked lane && !feed'.parked lane then e.dispatcher.rouse else e.dispatcher }
  | none => none

def onPoller? (id : PollerId) (event : Poller.Event) : Option Engine :=
  match e.pollers.get? id with
  | some p => (p.step event).map (e.putPoller id ·)
  | none => none

def jobReturned? (result : Except Error String) : Option Engine :=
  match e.dispatcher.stage with
  | .calling caller _ =>
    (e.dispatcher.called? result).map ((e.note (.jobReturned caller result)).dispatch ·)
  | _ => none

def matchReturned? (result : Except Error Unit) : Option Engine :=
  match e.holder with
  | some h =>
    let e := { e with holder := none }.note (.matchReturned h.call result)
    some (e.proceed h.task (e.registry.resume result h.pause))
  | none => none

def listReturned? (task : Task) (result : Except Error (List UnitStatus)) : Option Engine :=
  match task with
  | .caller id =>
    match e.callers.get? id with
    | some .listing => some (e.answer id (.listing result))
    | _ => none
  | .poller id =>
    (e.note (.listed id result)).stepPoller? id (.listed e.clock result)
  | .watcher _ | .dispatcher => none

def grant? (task : Task) : Option Engine :=
  if e.holder.isNone && e.queue.contains task then
    some ({ e with queue := e.queue.erase task }.enter task)
  else none

def arm? : Option Engine :=
  if e.dispatcher.isIdle && e.dispatcher.commands.isEmpty then
    some { e with dispatcher := e.dispatcher.arm }
  else none

/-- A command that is taken may be a job call. -/
def noteCall : Engine :=
  match e.dispatcher.stage with
  | .calling caller request => e.note (.asked (.job caller request))
  | _ => e

def takeSignal? : Option Engine :=
  match e.dispatcher.signals with
  | item :: _ =>
    e.dispatcher.takeSignal?.map fun r => ((e.note (.tookSignal item)).dispatch r).askTargets
  | [] => none

def deliver? : Option Engine :=
  match e.dispatcher.stage with
  | .sending parcel targets => some (e.deliver parcel targets)
  | _ => none

/-- A send that looks again is over if it finds the channel closed. -/
def look? : Option Engine :=
  match e.dispatcher.stage with
  | .blocked parcel feed rest true =>
    let accepts := (e.outlets.get? feed).any fun o => o.feed.accepts parcel.lane
    some { e with dispatcher := { e.dispatcher with
      stage := if accepts then .blocked parcel feed rest false else .sending parcel rest } }
  | _ => none

def unblock? : Option Engine :=
  match e.dispatcher.stage with
  | .blocked parcel feed rest _ =>
    if (e.outlets.get? feed).any fun o => o.feed.parked parcel.lane then none
    else some { e with dispatcher := { e.dispatcher with stage := .sending parcel rest } }
  | _ => none

/-- What an event does, if it is possible. -/
def react : Event → Option Engine
  | .call call =>
    if e.permits call then some ({ e with fresh := e.fresh + 1 }.call e.fresh call) else none
  | .expire id => e.expire? id
  | .leave id =>
    if e.leaving.contains id then some { e with leaving := e.leaving.erase id } else none
  | .poll interval capacity isChanged scope =>
    if e.permitsPoll scope then
      some ({ e with fresh := e.fresh + 1 }.putPoller e.fresh
        (.start interval capacity isChanged scope))
    else none
  | .openSet =>
    if e.handle then some { e with fresh := e.fresh + 1, sets := e.sets ++ [e.fresh] } else none
  | .dropSet s => some { e with sets := e.sets.filter (· != s) }
  | .dropHandle => some { e with handle := false, sets := [] }
  | .cancel feed => e.cancel? feed
  | .take (.feed id) lane => e.onFeed? id lane (·.take? lane)
  | .take (.poller id) lane => e.onPoller? id (.take lane)
  | .hangUp (.feed id) lane => e.onFeed? id lane fun f => some (f.hangUp lane)
  | .hangUp (.poller id) lane => e.onPoller? id (.hangUp lane)
  | .tick passed shown => some { e with clock := e.clock.pass passed shown }
  | .signal item =>
    if e.dispatcher.ended then none
    else some ({ e with dispatcher := e.dispatcher.receive item }.note (.arrived item))
  | .endSignals => some { e with dispatcher := { e.dispatcher with ended := true } }
  | .jobReturned result => e.jobReturned? result
  | .matchReturned result => e.matchReturned? result
  | .listReturned task result => e.listReturned? task result
  | .grant task => e.grant? task
  | .arm => e.arm?
  | .takeCommand => e.dispatcher.takeCommand?.map fun r => (e.dispatch r).noteCall
  | .takeSignal => e.takeSignal?
  | .deliver => e.deliver?
  | .look => e.look?
  | .unblock => e.unblock?
  | .stop =>
    if e.dispatcher.mayStop e.reachable then
      some ((e.note .stopped).dispatch e.dispatcher.stop)
    else none
  | .unblockPoller id => e.stepPoller? id (.unblock e.clock)
  | .wakePoller id => e.stepPoller? id (.wake e.clock)

/-- The command queue, found empty, wakes its reader when it gets a command and when the last handle
goes. -/
def startles (before after : Engine) : Bool :=
  before.dispatcher.armed && before.dispatcher.commands.isEmpty &&
    (!after.dispatcher.commands.isEmpty || before.reachable && !after.reachable)

def step (event : Event) : Option Engine :=
  (e.react event).map fun e' =>
    if e.startles e' then { e' with dispatcher := e'.dispatcher.startle } else e'

/-- The engine after the events of a run, each of which is possible. -/
def run : Engine → List Event → Option Engine
  | e, [] => some e
  | e, event :: rest => (e.step event).bind (run · rest)

theorem run_append (e : Engine) (l₁ l₂ : List Event) :
    e.run (l₁ ++ l₂) = (e.run l₁).bind fun e => e.run l₂ := by
  induction l₁ generalizing e with
  | nil => rfl
  | cons event rest ih =>
    cases h : e.step event with
    | none => simp [run, h]
    | some e' => simp [run, h, ih]

/-- What every step keeps, a run keeps. -/
theorem run_keeps {P : Engine → Prop}
    (hstep : ∀ {x event y}, P x → x.step event = some y → P y) {e e' : Engine}
    {events : List Event} (h : P e) (hr : e.run events = some e') : P e' := by
  induction events generalizing e with
  | nil =>
    cases hr
    exact h
  | cons event rest ih =>
    obtain ⟨e₁, hs, hr⟩ := Option.bind_eq_some_iff.1 hr
    exact ih (hstep h hs) hr

def Reachable (e : Engine) : Prop :=
  ∃ capacity timer events, (start capacity timer).run events = some e

theorem Reachable.step {e e' : Engine} {event : Event} (h : e.Reachable)
    (hs : e.step event = some e') : e'.Reachable := by
  obtain ⟨capacity, timer, events, hr⟩ := h
  exact ⟨capacity, timer, events ++ [event], by simp [run_append, hr, run, hs]⟩

def nextOfDispatcher? : Option Event :=
  match e.dispatcher.stage with
  | .sending .. => some .deliver
  | .blocked _ _ _ roused =>
    if e.unblock?.isSome then some .unblock else if roused then some .look else none
  | .idle =>
    if !e.dispatcher.commands.isEmpty then some .takeCommand
    else if !e.dispatcher.armed then some .arm
    else if !e.dispatcher.signals.isEmpty then some .takeSignal
    else if e.dispatcher.mayStop e.reachable then some .stop
    else none
  | _ => none

def nextOfPoller? (id : PollerId) : Option Event :=
  if (e.stepPoller? id (.unblock e.clock)).isSome then some (.unblockPoller id)
  else if (e.stepPoller? id (.wake e.clock)).isSome then some (.wakePoller id)
  else none

def nextOfCaller? (id : CallerId) : Option Event :=
  if e.leaving.contains id then some (.leave id)
  else if (e.expire? id).isSome then some (.expire id)
  else none

/-- The next step that a task can make by itself. -/
def next? (task : Task) : Option Event :=
  if e.queue.contains task then
    if e.holder.isNone then some (.grant task) else none
  else
    match task with
    | .dispatcher => e.nextOfDispatcher?
    | .caller id => e.nextOfCaller? id
    | .poller id => e.nextOfPoller? id
    | .watcher _ => none

/-- No task can go on by itself. -/
def AtRest : Prop := ∀ task, e.next? task = none

/-- Until when a task waits at most. -/
def deadline? : Task → Option Nat
  | .caller id =>
    match e.callers.get? id with
    | some (.job (some (deadline, _))) => some deadline
    | _ => none
  | .poller id =>
    match (e.pollers.get? id).map Poller.stage with
    | some (.sleeping wake) => some wake
    | _ => none
  | .watcher _ | .dispatcher => none

def clients : List Task :=
  (e.callers.keys ++ e.leaving).map .caller ++ e.pollers.keys.map .poller

end Engine

end UnitControl
