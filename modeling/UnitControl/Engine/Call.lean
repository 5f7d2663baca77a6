import UnitControl.Engine
import UnitControl.Name

/-!
# Calls on the engine

What a user of the engine can call, and the first step of each call. A call is answered at once, or
leaves its caller waiting.
-/

namespace UnitControl

inductive Call
  /-- With the time after which the caller gives up. -/
  | submit (request : JobRequest) (limit : Option Duration)
  /-- The same for a caller that has set its timer some time ago, and may look at the timer before
  it sends its request. -/
  | submitLate (request : JobRequest) (limit : Duration) (ago : Nat) (looks : Bool)
  | job (kind : JobKind) (unit : String) (mode : StartMode)
  | pendingJobs
  | listUnits
  | add (s : SetId) (unit : String)
  | remove (s : SetId) (unit : String)
  | contains (s : SetId) (unit : String)
  | members (s : SetId)
  /-- Makes a new feed with these capacities the sink of a set. The feed has the number of the
  caller. No task can be started if there is a cause for that. -/
  | attach (s : SetId) (values faults : Nat) (refusal : Option String)
  /-- Closes a set. Its handle is gone with the call. -/
  | close (s : SetId)
  /-- Delivers the updates of one unit on a new feed. -/
  | subscribe (unit : String) (values : Nat) (refusal : Option String)
  | references (unit : String)

namespace Call

/-- The set whose handle a call goes through. -/
def set? : Call → Option SetId
  | add s _ | remove s _ | contains s _ | members s | attach s .. | close s => some s
  | _ => none

end Call

namespace Engine

variable (e : Engine)

/-- Whether there is a handle to make the call with. -/
def permits (call : Call) : Bool :=
  match call.set? with
  | some s => e.sets.contains s
  | none => e.handle

def await (id : CallerId) (w : Wait) : Engine := { e with callers := e.callers.put id w }

def send (c : Command) : Engine :=
  { e with dispatcher := e.dispatcher.enqueue c }.note (.enqueued c)

def submit (id : CallerId) (request : JobRequest) (limit : Option (Nat × Error)) : Engine :=
  if e.dispatcher.hasStopped then e.note (.answered id (.job (.error .stopped)))
  else (e.await id (.job limit)).send (.submit id request)

/-- The caller's timer was set some time ago. A caller that looks at it first, and finds that it is
over, sends nothing. -/
def submitWithin (id : CallerId) (request : JobRequest) (limit : Duration) (ago : Nat)
    (looks : Bool) : Engine :=
  let err := Error.jobTimeout request.unit limit
  if limit = .zero then
    e.note (.answered id (.job (.error (.invalidInput "timeout must be > 0"))))
  else if looks && e.clock.isOver ago limit then e.note (.answered id (.job (.error err)))
  else e.submit id request (some (e.clock.dueSince ago limit, err))

def operateLater (id : CallerId) (op : Registry.Operation) (finish : Finish) : Engine :=
  (e.await id (.operation op finish)).enlist (.caller id)

def queryLater (id : CallerId) (q : Query) : Engine :=
  (e.await id (.query q)).enlist (.caller id)

/-- An operation on a unit, if the name of the unit is one. -/
def operateOn (id : CallerId) (unit : String) (op : String → Registry.Operation) : Engine :=
  match Name.canonical unit with
  | .ok unit => e.operateLater id (op unit) .answer
  | .error fault => e.note (.answered id (.done (.error fault.toError)))

/-- A new feed, which `ending` is to take out of the registry again. -/
def openFeed (feed : FeedId) (values faults : Nat) (ending : Registry.Operation) : Engine :=
  { e with
    outlets := e.outlets.put feed ⟨.ofCapacities values faults, ending, .expected false⟩ }

def finishFor (ending : Registry.Operation) : Option String → Finish
  | none => .watch
  | some cause => .undo ending cause

/-- The first step of the call of a new caller. -/
def call (id : CallerId) : Call → Engine
  | .submit request none => e.submit id request none
  | .submit request (some limit) => e.submitWithin id request limit 0 false
  | .submitLate request limit ago looks => e.submitWithin id request limit ago looks
  | .job kind unit mode =>
    match Name.canonical unit with
    | .ok unit => e.submit id (kind.request unit mode) none
    | .error fault => e.note (.answered id (.job (.error fault.toError)))
  | .pendingJobs =>
    if e.dispatcher.hasStopped then e.note (.answered id (.pending (.error .stopped)))
    else (e.await id .pending).send (.count id)
  | .listUnits => (e.await id .listing).note (.asked (.list (.caller id)))
  | .add s unit => e.operateOn id unit (.add s)
  | .remove s unit => e.operateOn id unit (.remove s)
  | .contains s unit =>
    match Name.canonical unit with
    | .ok unit => e.queryLater id (.contains s unit)
    | .error _ => e.note (.answered id (.isMember false))
  | .members s => e.queryLater id (.members s)
  | .attach s values faults refusal =>
    let ending := .detach s (some id) false
    (e.openFeed id values faults ending).operateLater id (.attach s id) (finishFor ending refusal)
  | .close s =>
    { e with sets := e.sets.filter (· != s) }.operateLater id (.detach s none true) .answer
  | .subscribe unit values refusal =>
    let e := e.openFeed id values 0 (.unsubscribe id)
    match Name.canonical unit with
    | .ok unit => e.operateLater id (.subscribe id unit) (finishFor (.unsubscribe id) refusal)
    | .error fault => (e.abandon (some id)).note (.answered id (.done (.error fault.toError)))
  | .references unit =>
    match Name.canonical unit with
    | .ok unit => e.queryLater id (.references unit)
    | .error _ => e.note (.answered id (.references 0))

end Engine

end UnitControl
