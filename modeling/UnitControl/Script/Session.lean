import UnitControl.Options
import UnitControl.Script.Report

/-!
# Sessions

A session drives an engine over a scripted manager, step by step, and reports after each step what
was answered and what the engine asked of the manager. Between two steps everything comes to rest.
-/

namespace UnitControl

/-- Which units a polling subscription of a session is about. -/
inductive PollScope
  | units (keep : Option (String → Bool))
  | set (name : String)

inductive SessionStep
  | call (call : Call)
  /-- A call on the set of this name. -/
  | setCall (name : String) (call : SetId → Call)
  | setSink (name sink : String) (values faults : Nat) (runtime : Bool)
  | direct (unit sink : String) (values : Nat) (runtime : Bool)
  | openSet (name : String)
  | closeSet (name : String)
  | dropSet (name : String)
  | cancel (sink : String)
  /-- A polling subscription, at the standard interval if none is given. -/
  | poll (sink : String) (interval : Option Duration) (capacity : Nat)
      (isChanged : UnitStatus → UnitStatus → Bool) (scope : PollScope) (runtime : Bool)
  /-- Takes at most a number of messages from each channel. -/
  | receive (sink : String) (limit : Option Nat)
  | dropSink (sink : String) (lane : Option Lane)
  | emit (items : List (Except Error Signal))
  | endSignals
  | configure (change : Manager.Change)
  | release (gate : Gate) (n : Nat)
  /-- Puts the timers forward. -/
  | advance (passed : Duration)
  | rules
  | secondEngine
  | dropEngine
  | signalsOpen
  | describe

structure Sink where
  source : Source
  /-- Whether errors have a channel of their own. -/
  hasFaults : Bool
  /-- Whether a cancellation can still be resolved. -/
  cancellable : Bool

structure Session where
  options : Options
  manager : Manager
  engine : Option Engine
  schedule : Schedule
  signalsEnded : Bool
  sets : Table String SetId
  sinks : Table String Sink
  /-- The names of the steps that wait, by caller. -/
  steps : Table CallerId String

namespace Session

/-- The opening of an engine: the signals are claimed, the manager's own rules are added, and the
dispatcher is started. -/
def openingRules : List MatchRule := [.manager "JobRemoved", .manager "UnitNew"]

/-- The timer of the scripted runtime, by which no wait is longer than thirty years. -/
def timer : Timer := fun now d => now + min d.nanos (Duration.ofSeconds (30 * 365 * 86400)).nanos

/-- Why no task can be started, where there is no runtime. -/
def refusal (runtime : Bool) : Option String :=
  if runtime then none
  else some "there is no reactor running, must be called from the context of a Tokio 1.x runtime"

def addRules (m : Manager) : List MatchRule → Manager × List MatchRule × Except Error Unit
  | [] => (m, [], .ok ())
  | rule :: rest =>
    match m.addRule rule with
    | (m, .ok _) =>
      let r := addRules m rest
      (r.1, rule :: r.2.1, r.2.2)
    | (m, .error e) => (m, [rule], .error e)

def opening (options : Options) (manager : Manager) (runtime : Bool) : Session × Report :=
  let session (m : Manager) (e : Option Engine) : Session :=
    ⟨options, m, e, .empty, false, .empty, .empty, .empty⟩
  let report (rules : List MatchRule) (output : Output) : Report :=
    { Report.silent output with added := (rules.map MatchRule.text).mergeSort }
  if .add ∈ manager.gates then
    (session manager none, report (openingRules.take 1) .waiting)
  else
    match addRules manager openingRules with
    | (m, rules, .error e) => (session m none, report rules (.answer (.done (.error e))))
    | (m, rules, .ok _) =>
      match refusal runtime with
      | none =>
        let engine := Engine.start options.requestBuffer timer
        (session m (some engine), report rules (.answer (.done (.ok ()))))
      | some cause =>
        let err := Error.noRuntime "unitlink-dispatch" cause
        (session m none, report rules (.answer (.done (.error err))))

variable (s : Session)

def world? : Option (World Manager) := s.engine.map fun engine => ⟨s.manager, engine, s.schedule⟩

def withWorld (w : World Manager) : Session :=
  { s with manager := w.bus, engine := some w.engine, schedule := w.schedule }

/-- Events on the engine, and all that follows from them. -/
def play (events : List Event) : Session :=
  match s.world? with
  | some w => s.withWorld (w.settle Manager.responder events)
  | none => s

/-- The entries of the journal since an earlier state of the session. -/
def newsSince (earlier later : Session) : List Entry :=
  match earlier.engine, later.engine with
  | some e, some e' => World.newsSince e e'
  | _, _ => []

/-- The report of a step that leaves the session in a later state. -/
def report (later : Session) (output : Output) : Session × Report :=
  let r := Report.ofEntries output s.steps (newsSince s later)
  ({ later with steps := later.steps.filterMap fun id name =>
      if later.engine.any fun e => e.callers.contains id then some name else none }, r)

def answerTo (id : CallerId) (entries : List Entry) : Option Answer :=
  entries.findSome? fun
    | .answered c a => if c = id then some a else none
    | _ => none

/-- The number that the next caller, set, feed or poller gets. -/
def fresh : Nat := (s.engine.map Engine.fresh).getD 0

/-- A call, whose step is reported under its name when it has to wait. -/
def makeCall (name : String) (call : Call) : Session × Report :=
  let later := s.play [.call call]
  match s.engine with
  | none => (s, .silent (.unknown "engine"))
  | some _ =>
    match answerTo s.fresh (newsSince s later) with
    | some a => s.report later (.answer a)
    | none => s.report { later with steps := later.steps.put s.fresh name } .waiting

def hangUp (source : Source) : List Event := [.hangUp source .values, .hangUp source .faults]

/-- Keeps the receiving ends of a subscription under a name, in place of older ones. -/
def putSink (name : String) (sink : Sink) : Session :=
  let s := match s.sinks.get? name with
    | some old => s.play (hangUp old.source)
    | none => s
  { s with sinks := s.sinks.put name sink }

def pollScope? : PollScope → Option Scope
  | .units none => some .all
  | .units (some keep) => some (.named keep)
  | .set name => (s.sets.get? name).map .membersOf

def startPoll (sink : String) (interval : Duration) (capacity : Nat)
    (isChanged : UnitStatus → UnitStatus → Bool) (scope : Scope) (runtime : Bool) :
    Session × Report :=
  match Poller.check interval (refusal runtime) with
  | .error e => s.report s (.answer (.done (.error e)))
  | .ok _ =>
    let later := s.putSink sink ⟨.poller s.fresh, true, false⟩
    s.report (later.play [.poll interval capacity isChanged scope]) (.answer (.done (.ok ())))

/-- What a consumer gets from a channel that it still has. -/
def take {α : Type} (c : Channel α) (limit : Option Nat) : Option (Taken α) :=
  if c.listening then
    let r := match limit with
      | some n => c.receive n
      | none => c.drain
    some ⟨r.1, r.2.1⟩
  else none

def taking {α : Type} (source : Source) (lane : Lane) (t : Option (Taken α)) : List Event :=
  List.replicate ((t.map fun t => t.items.length).getD 0) (.take source lane)

def receive (sink : Sink) (limit : Option Nat) : Session × Report :=
  match sink.source, s.engine with
  | .feed id, some e =>
    match e.outlets.get? id with
    | some o =>
      let values := take o.feed.values limit
      let faults := if sink.hasFaults then take o.feed.faults limit else none
      s.report (s.play (taking sink.source .values values ++ taking sink.source .faults faults))
        (.updates values faults)
    | none => (s, .silent .nothing)
  | .poller id, some e =>
    match e.pollers.get? id with
    | some p =>
      let values := take p.feed.values limit
      let faults := take p.feed.faults limit
      s.report (s.play (taking sink.source .values values ++ taking sink.source .faults faults))
        (.changes values faults)
    | none => (s, .silent .nothing)
  | _, none => (s, .silent .nothing)

def cancelSink (name : String) : Session × Report :=
  match s.sinks.get? name, s.engine with
  | some sink, some e =>
    match sink.cancellable, sink.source with
    | true, .feed id =>
      let later := { s with sinks := s.sinks.put name { sink with cancellable := false } }
      s.report (later.play [.cancel id]) (.flag (some (e.step (.cancel id)).isSome))
    | _, _ => (s, .silent .nothing)
  | _, _ => (s, .silent .nothing)

/-- A call that makes a new feed, whose receiving ends are kept under a name. -/
def callWithFeed (name sink : String) (hasFaults : Bool) (call : Call) : Session × Report :=
  (s.putSink sink ⟨.feed s.fresh, hasFaults, true⟩).makeCall name call

def holdsSignals : Bool := s.engine.any fun e => !e.dispatcher.hasStopped

/-- The rules that are in force, or that were removed too often. -/
def activeRules : List (MatchRule × Int) :=
  s.manager.rules.entries.filter fun e => e.2 != 0

def step (name : String) : SessionStep → Session × Report
  | .call call => s.makeCall name call
  | .setCall set call =>
    match s.sets.get? set with
    | some id => s.makeCall name (call id)
    | none => (s, .silent (.unknown set))
  | .setSink set sink values faults runtime =>
    match s.sets.get? set with
    | some id => s.callWithFeed name sink true (.attach id values faults (refusal runtime))
    | none => (s, .silent (.unknown set))
  | .direct unit sink values runtime =>
    s.callWithFeed name sink false (.subscribe unit values (refusal runtime))
  | .openSet set =>
    s.report ({ s with sets := s.sets.put set s.fresh }.play [.openSet]) .nothing
  | .closeSet set =>
    match s.sets.get? set with
    | some id => { s with sets := s.sets.erase set }.makeCall name (.close id)
    | none => (s, .silent (.unknown set))
  | .dropSet set =>
    match s.sets.get? set with
    | some id => s.report ({ s with sets := s.sets.erase set }.play [.dropSet id]) .nothing
    | none => (s, .silent (.unknown set))
  | .cancel sink => s.cancelSink sink
  | .poll sink interval capacity isChanged scope runtime =>
    match s.pollScope? scope with
    | some scope =>
      s.startPoll sink (interval.getD s.options.pollInterval) capacity isChanged scope runtime
    | none => (s, .silent (.unknown "set"))
  | .receive sink limit =>
    match s.sinks.get? sink with
    | some sink => s.receive sink limit
    | none => (s, .silent (.unknown sink))
  | .dropSink sink lane =>
    match s.sinks.get? sink with
    | some sink =>
      s.report (s.play (match lane with
        | some lane => [.hangUp sink.source lane]
        | none => hangUp sink.source)) .nothing
    | none => (s, .silent (.unknown sink))
  | .emit items => s.report (s.play (items.map .signal)) .nothing
  | .endSignals => s.report ({ s with signalsEnded := true }.play [.endSignals]) .nothing
  | .configure change => ({ s with manager := s.manager.configure change }, .silent .nothing)
  | .release gate n =>
    let r := s.manager.release gate n
    s.report ({ s with manager := r.1 }.play r.2) .nothing
  | .advance passed => s.report (s.play [.tick passed.nanos 0]) .nothing
  | .rules => (s, .silent (.rules s.activeRules))
  | .secondEngine =>
    (s, .silent (.answer (.done (.error (.backendUnavailable "fake" "signals already taken")))))
  | .dropEngine => s.report ({ s with sets := .empty }.play [.dropHandle]) .nothing
  | .signalsOpen => (s, .silent (.flag (if s.signalsEnded then none else some s.holdsSignals)))
  | .describe => (s, .silent (.text s.options.describe))

/-- The reports of all steps, each of which has a name. -/
def reports : Session → List (String × SessionStep) → List Report
  | _, [] => []
  | s, (name, step) :: rest =>
    let r := s.step name step
    r.2 :: reports r.1 rest

end Session

end UnitControl
