import UnitControl.Options
import UnitControl.Script.Bus
import UnitControl.Script.World

/-!
# An engine on a scripted bus

The engine as its users meet it: it connects, opens, and makes its calls on the bus. Where the
caller's own thread would have to run the engine while it waits, every call is refused.
-/

namespace UnitControl

inductive LinkContext
  | plain
  | multiThread
  /-- The only thread is the caller's own. -/
  | currentThread
  | system
  | session
  deriving DecidableEq, Repr

def LinkContext.bus : LinkContext → BusKind
  | session => .session
  | _ => .system

structure OpenCall where
  /-- The time after which it is given up. -/
  left : Nat
  conclude : CallEnd → Event

structure Link where
  bus : ScriptedBus
  unanswered : List OpenCall

namespace Link

def refusal : Error :=
  .invalidInput ("blocking API cannot run inside a tokio current-thread runtime; " ++
    "use async API or a multi-thread tokio runtime")

def signalEvents (messages : List Message) : List Event :=
  (ScriptedBus.signals messages).map .signal

/-- What the connection brings about at once when a call is made. With the connection the signals
end, and so do the calls that have no answer. -/
def eventsOf {α : Type} (l : Link) (r : ScriptedBus × ScriptedBus.Answered α)
    (event : Except Error α → Event) : Link × List Event :=
  let reply := r.2.reply
  match reply.ending with
  | .noAnswer =>
    let call : OpenCall :=
      ⟨r.1.limit.nanos, fun ending => event (r.2.meaning ending)⟩
    (⟨r.1, l.unanswered ++ [call]⟩, signalEvents (reply.before ++ reply.after))
  | _ =>
    let events := signalEvents reply.before ++ event r.2.result :: signalEvents reply.after
    if r.1.lost then
      (⟨r.1, []⟩, events ++ l.unanswered.map (fun call => call.conclude .lost) ++ [.endSignals])
    else (⟨r.1, l.unanswered⟩, events)

def respond (l : Link) : Request → Link × List Event
  | .job _ request => l.eventsOf (l.bus.callJob request) .jobReturned
  | .matchRule (.add unit) => l.eventsOf (l.bus.addMatch (.unit unit)) .matchReturned
  | .matchRule (.remove unit) => l.eventsOf (l.bus.removeMatch (.unit unit)) .matchReturned
  | .list task => l.eventsOf l.bus.listUnits (.listReturned task)

def responder : Responder Link where
  respond
  bound l := (l.bus.reply.map fun r => r.before.length + r.after.length).getD 0 +
    l.unanswered.length + 2

def addRules (b : ScriptedBus) : List MatchRule → ScriptedBus × Except Error Unit
  | [] => (b, .ok ())
  | rule :: rest =>
    let r := b.addMatch rule
    match r.2.result with
    | .ok _ => addRules r.1 rest
    | .error e => (r.1, .error e)

def connect (context : LinkContext) (limit : Duration) (w : Welcome) :
    ScriptedBus × Except Error Unit :=
  if context = .currentThread then (.start limit, .error refusal)
  else
    match ScriptedBus.connect context.bus limit w with
    | (b, .ok _) => addRules b [.manager "JobRemoved", .manager "UnitNew"]
    | (b, .error e) => (b, .error e)

def answer? (id : CallerId) (e : Engine) : Option Answer :=
  e.journal.findSome? fun
    | .answered c a => if c = id then some a else none
    | _ => none

/-- How long it takes until a call without an answer, or a task, is through with waiting. -/
def nextMoment? (w : World Link) : Option Nat :=
  (w.bus.unanswered.map OpenCall.left ++ w.engine.clients.filterMap fun task =>
    (w.engine.deadline? task).map (· - w.engine.clock.now)).min?

def pass (w : World Link) (time : Nat) : World Link :=
  let calls := w.bus.unanswered.map fun call => { call with left := call.left - time }
  let bus := { w.bus with unanswered := calls.filter fun call => call.left != 0 }
  let given := (calls.filter fun call => call.left == 0).map fun call => call.conclude .noAnswer
  { w with bus }.settle responder (.tick time time :: given)

/-- Lets time go by until a caller has its answer, as long as anything is to happen. -/
def await (id : CallerId) (w : World Link) : Nat → World Link
  | 0 => w
  | fuel + 1 =>
    if w.engine.callers.contains id then
      match nextMoment? w with
      | some time => await id (pass w time) fuel
      | none => w
    else w

/-- One call, up to its answer. At each moment a call on the bus is given up, which may be one that
is made meanwhile, or a caller gives up. -/
def step (w : World Link) (call : Call) (reply : Option ScriptedReply) :
    World Link × Option Answer :=
  let id := w.engine.fresh
  let bus := { w.bus with bus := { w.bus.bus with reply, calls := [] } }
  let w := { w with bus }.settle responder [.call call]
  let w := await id w (w.bus.unanswered.length + w.engine.callers.size + 1)
  (w, answer? id w.engine)

def answers (w : World Link) :
    List (Call × Option ScriptedReply) → List (Option Answer × List MethodCall)
  | [] => []
  | (call, reply) :: rest =>
    let r := step w call reply
    (r.2, r.1.bus.bus.calls) :: answers r.1 rest

/-- A session that connects and then makes its calls, if it could connect. -/
def session (context : LinkContext) (limit : Duration) (w : Welcome)
    (calls : List (Call × Option ScriptedReply)) : List (Option Answer × List MethodCall) :=
  match connect context limit w with
  | (b, .ok _) =>
    let engine := Engine.start Options.standard.requestBuffer .exact
    (some (.done (.ok ())), b.calls) :: answers ⟨⟨b, []⟩, engine, .empty⟩ calls
  | (b, .error e) => [(some (.done (.error e)), b.calls)]

end Link

end UnitControl
