import UnitControl.Bus.Call
import UnitControl.Bus.Message

/-!
# A bus that follows a script

A bus that lets a client connect or not, answers its calls as it is told, and otherwise grants match
rules, lists no units and refuses everything else. It remembers the calls of the current step, and
the signals that a client has not read since it began to listen.
-/

namespace UnitControl

structure ScriptedReply where
  before : List Message
  ending : CallEnd
  after : List Message

inductive BusKind
  | system
  | session
  deriving DecidableEq, Repr

def BusKind.backend : BusKind → String
  | system => "system_bus"
  | session => "session_bus"

/-- What a client meets that connects. -/
structure Welcome where
  /-- The address is usable and the client is let in. -/
  admits : Bool
  hello : Option ScriptedReply
  subscribe : Option ScriptedReply

structure ScriptedBus where
  limit : Duration
  /-- The answer to the next call. -/
  reply : Option ScriptedReply
  lost : Bool
  calls : List MethodCall
  /-- What a client that listens to signals has not yet read of them. -/
  unread : Option (List (Except Error Signal))

namespace ScriptedBus

def standardEnd (call : MethodCall) : CallEnd :=
  if call.member = "AddMatch" ∨ call.member = "RemoveMatch" then .returned []
  else if call.member = "ListUnits" then .returned [.rows []]
  else .failed "org.freedesktop.DBus.Error.UnknownMethod" ""

def start (limit : Duration) : ScriptedBus := ⟨limit, none, false, [], none⟩

variable (b : ScriptedBus)

def signals (messages : List Message) : List (Except Error Signal) :=
  messages.filterMap Message.signal?

/-- Signals for a client that listens. -/
def deliver (items : List (Except Error Signal)) : ScriptedBus :=
  { b with unread := b.unread.map (· ++ items) }

/-- The connection is lost, which a client that listens hears as an error. -/
def lose : ScriptedBus := { b.deliver [.error CallEnd.lostConnection] with lost := true }

/-- The end of a call and the messages that come before it and after it. -/
def call (c : MethodCall) : ScriptedBus × ScriptedReply :=
  if !c.isSendable then (b, ⟨[], .unsendable, []⟩)
  else if b.lost then (b, ⟨[], .lost, []⟩)
  else
    let reply := b.reply.getD ⟨[], standardEnd c, []⟩
    let b := { b with reply := none, calls := b.calls ++ [c.asRead] }.deliver (signals reply.before)
    match reply.ending with
    | .lost => (b.lose, { reply with after := [] })
    | _ => (b.deliver (signals reply.after), reply)

/-- The reply to a call, and what each way in which the call can end means to its caller. -/
structure Answered (α : Type) where
  reply : ScriptedReply
  meaning : CallEnd → Except Error α

def Answered.result {α : Type} (a : Answered α) : Except Error α := a.meaning a.reply.ending

def ask {α : Type} (c : MethodCall) (action : String) (unit : Option String)
    (decode : Body → Option α) : ScriptedBus × Answered α :=
  let r := b.call c
  (r.1, ⟨r.2, CallEnd.result action b.limit unit decode⟩)

def callJob (request : JobRequest) : ScriptedBus × Answered String :=
  match checkArgs request with
  | .error e => (b, ⟨⟨[], .unsendable, []⟩, fun _ => .error e⟩)
  | .ok _ =>
    b.ask (.onManager request.method request.args) "submit_job" request.args.head? decodeJobPath

def listUnits : ScriptedBus × Answered (List UnitStatus) :=
  b.ask (.onManager "ListUnits" []) "list_units" none decodeListing

def addMatch (rule : MatchRule) : ScriptedBus × Answered Unit :=
  b.ask (.onBus "AddMatch" [rule.text]) "AddMatch" none decodeNothing

def removeMatch (rule : MatchRule) : ScriptedBus × Answered Unit :=
  b.ask (.onBus "RemoveMatch" [rule.text]) "RemoveMatch" none decodeNothing

/-- Whether a client is content with the answer to its greeting, before which nothing may come. -/
def greets (hello : Option ScriptedReply) : Bool :=
  match hello with
  | none => true
  | some ⟨[], .returned [.string name], _⟩ => Identifier.isConnection name
  | some _ => false

/-- A new connection, on which the client has asked the manager for its signals. -/
def connect (kind : BusKind) (limit : Duration) (w : Welcome) : ScriptedBus × Except Error Unit :=
  let b := start limit
  if w.admits && greets w.hello then
    let b := { b with reply := some (w.subscribe.getD ⟨[], .returned [], []⟩) }
    let r := b.ask (.onManager "Subscribe" []) "subscribe" none decodeNothing
    (r.1, r.2.result)
  else (b, .error (.backendUnavailable kind.backend "cannot connect"))

end ScriptedBus

inductive BusStep
  | callJob (request : JobRequest)
  | listUnits
  | addMatch (rule : MatchRule)
  | removeMatch (rule : MatchRule)
  | signals (messages : List Message)

inductive BusOutput
  | done (result : Except Error Unit)
  | job (result : Except Error String)
  | listing (result : Except Error (List UnitStatus))
  | signals (items : List (Except Error Signal))

namespace ScriptedBus

variable (b : ScriptedBus)

def step : BusStep → ScriptedBus × BusOutput
  | .callJob request =>
    let r := b.callJob request
    (r.1, .job r.2.result)
  | .listUnits =>
    let r := b.listUnits
    (r.1, .listing r.2.result)
  | .addMatch rule =>
    let r := b.addMatch rule
    (r.1, .done r.2.result)
  | .removeMatch rule =>
    let r := b.removeMatch rule
    (r.1, .done r.2.result)
  | .signals messages =>
    let unread := b.unread.getD []
    ({ b with unread := some [] }, .signals (unread ++ if b.lost then [] else signals messages))

/-- The outputs of steps with their replies, each with the calls that it made. -/
def outputs (b : ScriptedBus) :
    List (BusStep × Option ScriptedReply) → List (BusOutput × List MethodCall)
  | [] => []
  | (step, reply) :: rest =>
    let r := { b with reply, calls := [] }.step step
    (r.2, r.1.calls) :: outputs r.1 rest

/-- A session that connects and then takes its steps, if it could connect. -/
def session (kind : BusKind) (limit : Duration) (w : Welcome)
    (steps : List (BusStep × Option ScriptedReply)) : List (BusOutput × List MethodCall) :=
  match connect kind limit w with
  | (b, .ok _) => (.done (.ok ()), b.calls) :: outputs b steps
  | (b, .error e) => [(.done (.error e), b.calls)]

end ScriptedBus

end UnitControl
