import UnitControl.Clock
import UnitControl.Dispatcher
import UnitControl.Poller
import UnitControl.Registry.Operation

/-!
# The engine

The tasks of the engine and what they share: callers that wait, the dispatcher, a watcher for each
subscription that ends it when it is cancelled, pollers, and the registry behind its lock. The
journal keeps what has happened, the latest entry first.
-/

namespace UnitControl

inductive Task
  | caller (id : CallerId)
  | watcher (feed : FeedId)
  | dispatcher
  | poller (id : PollerId)
  deriving DecidableEq, Repr

/-- A call on the bus that a task has made. -/
inductive Request
  | job (caller : CallerId) (request : JobRequest)
  | matchRule (call : MatchCall)
  | list (task : Task)
  deriving DecidableEq, Repr

inductive Query
  | contains (s : SetId) (unit : String)
  | members (s : SetId)
  | references (unit : String)
  deriving DecidableEq, Repr

/-- What a caller does when its operation on the registry is over. -/
inductive Finish
  | answer
  /-- Leaves a task behind that waits for the cancellation of the new subscription. -/
  | watch
  /-- Takes the operation back at once, since no task can be started for this cause. -/
  | undo (operation : Registry.Operation) (cause : String)
  /-- Answers with the cause for which the operation was taken back. -/
  | fail (cause : Error)

/-- What a caller is waiting for. -/
inductive Wait
  /-- With the time at which the caller gives up, and the error that it then gets. -/
  | job (limit : Option (Nat × Error))
  | pending
  | listing
  | query (q : Query)
  | operation (op : Registry.Operation) (finish : Finish)

/-- The task that ends a subscription. -/
inductive Watch
  /-- The call that subscribes has not returned; the subscription may be cancelled already. -/
  | expected (cancelled : Bool)
  | watching
  | ending
  | over
  deriving DecidableEq, Repr

structure Outlet where
  feed : Feed Update
  /-- The operation that ends the subscription. -/
  ending : Registry.Operation
  watch : Watch

/-- The task that holds the registry, with the bus call that it waits for. -/
structure Holder where
  task : Task
  call : MatchCall
  pause : Registry.Pause

inductive Entry
  | enqueued (c : Command)
  | arrived (item : Except Error Signal)
  | asked (request : Request)
  | jobReturned (caller : CallerId) (result : Except Error String)
  | matchReturned (call : MatchCall) (result : Except Error Unit)
  | operated (op : Registry.Operation) (result : Except Error Unit)
  | tookSignal (item : Except Error Signal)
  | collected (parcel : Parcel Update) (targets : List FeedId)
  | delivered (feed : FeedId) (parcel : Parcel Update)
  | skipped (feed : FeedId) (parcel : Parcel Update)
  | closed (feed : FeedId)
  | listed (id : PollerId) (result : Except Error (List UnitStatus))
  | answered (caller : CallerId) (answer : Answer)
  | stopped

structure Engine where
  clock : Clock
  /-- The next number for a caller, a set, a feed or a poller. No number is used twice. -/
  fresh : Nat
  /-- The handle on the engine is still held. -/
  handle : Bool
  /-- The sets of which a handle is held. -/
  sets : List SetId
  registry : Registry
  holder : Option Holder
  /-- The tasks that want the registry. -/
  queue : List Task
  outlets : Table FeedId Outlet
  dispatcher : Dispatcher
  callers : Table CallerId Wait
  /-- The callers that have their answer and are about to let their handle go. -/
  leaving : List CallerId
  pollers : Table PollerId Poller
  journal : List Entry

namespace Engine

/-- A new engine, whose command queue has this capacity. -/
def start (capacity : Nat) (timer : Timer) : Engine where
  clock := .start timer
  fresh := 0
  handle := true
  sets := []
  registry := .empty
  holder := none
  queue := []
  outlets := .empty
  dispatcher := .start capacity
  callers := .empty
  leaving := []
  pollers := .empty
  journal := []

variable (e : Engine)

/-- Whether anybody can still send the dispatcher a command: a caller has a handle of its own. -/
def reachable : Bool :=
  e.handle || !e.sets.isEmpty || e.callers.size != 0 || !e.leaving.isEmpty

def note (entry : Entry) : Engine := { e with journal := entry :: e.journal }

/-- Answers a caller, unless it has its answer already. -/
def answer (caller : CallerId) (a : Answer) : Engine :=
  if e.callers.contains caller then
    { e with callers := e.callers.erase caller, leaving := e.leaving ++ [caller] }.note
      (.answered caller a)
  else e

def answerAll (replies : List Reply) : Engine :=
  replies.foldl (fun e r => e.answer r.1 r.2) e

def enlist (task : Task) : Engine := { e with queue := e.queue ++ [task] }

def setWatch (feed : FeedId) (w : Watch) : Engine :=
  { e with outlets := e.outlets.modify feed fun o => { o with watch := w } }

def closeFeed (feed : FeedId) : Engine :=
  { e with outlets := e.outlets.modify feed fun o => { o with feed := o.feed.close } }.note
    (.closed feed)

def dispatch (r : Dispatcher × List Reply) : Engine := { e with dispatcher := r.1 }.answerAll r.2

/-- The subscription could not be made, or was taken back. -/
def abandon (feed : Option FeedId) : Engine :=
  match feed with
  | some f => (e.setWatch f .over).closeFeed f
  | none => e

/-- Starts the task that waits for the cancellation of a subscription. -/
def startWatch (feed : FeedId) : Engine :=
  match (e.outlets.get? feed).map Outlet.watch with
  | some (.expected true) => (e.setWatch feed .ending).enlist (.watcher feed)
  | some (.expected false) => e.setWatch feed .watching
  | _ => e

/-- The operation of a caller is over. -/
def conclude (caller : CallerId) (op : Registry.Operation) (finish : Finish)
    (result : Except Error Unit) : Engine :=
  match result, finish with
  | .ok _, .answer => e.answer caller (.done (.ok ()))
  | .ok _, .watch =>
    let e := e.answer caller (.done (.ok ()))
    match op.newcomer? with
    | some feed => e.startWatch feed
    | none => e
  | .ok _, .undo next cause =>
    let e := match op.newcomer? with
      | some feed => e.setWatch feed .over
      | none => e
    let wait := .operation next (.fail (.noRuntime "unitlink-cancel" cause))
    { e with callers := e.callers.put caller wait }.enlist (.caller caller)
  | .ok _, .fail cause => e.answer caller (.done (.error cause))
  | .error err, _ => (e.abandon op.newcomer?).answer caller (.done (.error err))

def finish (task : Task) (result : Except Error Unit) : Engine :=
  match task with
  | .caller id =>
    match e.callers.get? id with
    | some (.operation op f) => (e.note (.operated op result)).conclude id op f result
    | _ => e
  | .watcher feed =>
    match e.outlets.get? feed with
    | some o => (e.note (.operated o.ending result)).setWatch feed .over
    | none => e
  | .dispatcher | .poller _ => e

def proceed (task : Task) (r : Registry × Registry.Progress) : Engine :=
  let e := { e with registry := r.1 }
  match r.2 with
  | .done result => e.finish task result
  | .ask call pause =>
    { e with holder := some ⟨task, call, pause⟩ }.note (.asked (.matchRule call))

/-- Runs an operation up to its end or to its first bus call. -/
def operate (task : Task) (op : Registry.Operation) : Engine :=
  let e := match e.registry.closes op with
    | some feed => e.closeFeed feed
    | none => e
  e.proceed task (e.registry.begin op)

def respond (q : Query) : Answer :=
  match q with
  | .contains s unit => .isMember (decide (unit ∈ e.registry.members s))
  | .members s => .members (e.registry.members s).mergeSort
  | .references unit => .references (e.registry.count unit)

/-- What a task does that gets the registry. -/
def enter (task : Task) : Engine :=
  match task with
  | .caller id =>
    match e.callers.get? id with
    | some (.query q) => e.answer id (e.respond q)
    | some (.operation op _) => e.operate task op
    | _ => e
  | .watcher feed =>
    match e.outlets.get? feed with
    | some o => e.operate task o.ending
    | none => e
  | .dispatcher =>
    match e.dispatcher.stage with
    | .collecting parcel =>
      let targets := e.registry.targets parcel
      { e with dispatcher := { e.dispatcher with stage := .sending parcel targets } }.note
        (.collected parcel targets)
    | _ => e
  | .poller id =>
    match e.pollers.get? id with
    | some p =>
      let members := match p.scope with
        | .membersOf s => e.registry.members s
        | _ => []
      match p.step (.scoped e.clock members) with
      | some p => { e with pollers := e.pollers.put id p }
      | none => e
    | none => e

/-- One parcel for the next feed; the feeds that take nothing are passed over. -/
def deliver (parcel : Parcel Update) : List FeedId → Engine
  | [] => { e with dispatcher := { e.dispatcher with stage := .idle } }
  | feed :: rest =>
    let stage : Engine → Stage → Engine := fun e s =>
      { e with dispatcher := { e.dispatcher with stage := s } }
    match e.outlets.get? feed with
    | none => stage (e.note (.skipped feed parcel)) (.sending parcel rest)
    | some o =>
      if o.feed.accepts parcel.lane then
        let sent := o.feed.send parcel
        let e := { e with outlets := e.outlets.put feed { o with feed := sent } }.note
          (.delivered feed parcel)
        stage e (if sent.parked parcel.lane then .blocked parcel feed rest false
          else .sending parcel rest)
      else stage (e.note (.skipped feed parcel)) (.sending parcel rest)

/-- A signal for subscribers makes the dispatcher wait for the registry. -/
def askTargets : Engine :=
  match e.dispatcher.stage with
  | .collecting _ => e.enlist .dispatcher
  | _ => e

end Engine

end UnitControl
