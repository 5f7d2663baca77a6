import UnitControl.Signal
import UnitControl.Registry

/-!
# The dispatcher

One task carries out the requests of all callers and reads the signals. It issues a job call and
records the path that it gets before it reads the next signal, so that the end of a job is never
read before the job is known.
-/

namespace UnitControl

abbrev CallerId := Nat

inductive Command
  | submit (caller : CallerId) (request : JobRequest)
  | count (caller : CallerId)
  deriving DecidableEq, Repr

/-- What a caller gets back. -/
inductive Answer
  | job (result : Except Error JobOutput)
  | pending (result : Except Error Nat)
  | done (result : Except Error Unit)
  | listing (result : Except Error (List UnitStatus))
  | isMember (b : Bool)
  | members (units : List String)
  | references (n : Nat)

abbrev Reply := CallerId × Answer

namespace Command

def caller : Command → CallerId
  | submit c _ | count c => c

/-- What the caller of a command gets when the dispatcher stops with the command still queued. -/
def refusal : Command → Reply
  | submit c _ => (c, .job (.error .dropped))
  | count c => (c, .pending (.error .stopped))

end Command

inductive Stage
  | idle
  | calling (caller : CallerId) (request : JobRequest)
  /-- Waits for the registry to tell where a parcel goes. -/
  | collecting (parcel : Parcel Update)
  | sending (parcel : Parcel Update) (targets : List FeedId)
  /-- Waits for room on the channel of one feed, with the rest still to be served. When roused it
  looks at the channel again. -/
  | blocked (parcel : Parcel Update) (feed : FeedId) (rest : List FeedId) (roused : Bool)
  | stopped

structure Dispatcher where
  /-- How many commands the queue has room for. -/
  capacity : Nat
  /-- A command is queued as soon as it is sent; without room for it, its caller waits. -/
  commands : List Command
  /-- The dispatcher has found no command, and the next one is to wake it. -/
  armed : Bool
  signals : List (Except Error Signal)
  /-- No signal will come after those in `signals`. -/
  ended : Bool
  /-- Which caller waits for which job, by the path of the job. -/
  pending : Table String CallerId
  stage : Stage

namespace Dispatcher

def start (capacity : Nat) : Dispatcher := ⟨capacity, [], false, [], false, .empty, .idle⟩

variable (d : Dispatcher)

def isIdle : Bool :=
  match d.stage with
  | .idle => true
  | _ => false

def hasStopped : Bool :=
  match d.stage with
  | .stopped => true
  | _ => false

def rouse : Dispatcher :=
  match d.stage with
  | .blocked parcel feed rest _ => { d with stage := .blocked parcel feed rest true }
  | _ => d

/-- The queue of commands wakes the dispatcher, which has to look there again to be woken again. -/
def startle : Dispatcher := { d.rouse with armed := false }

def arm : Dispatcher := { d with armed := true }

def enqueue (c : Command) : Dispatcher := { d with commands := d.commands ++ [c] }

/-- Nobody reads the signals any more once the dispatcher has stopped. -/
def receive (item : Except Error Signal) : Dispatcher :=
  if d.hasStopped then d else { d with signals := d.signals ++ [item] }

/-- Records the caller that waits for a job. An older one for the same path is let go. -/
def expect (path : String) (caller : CallerId) : Dispatcher × List Reply :=
  ({ d with pending := d.pending.put path caller },
    (d.pending.get? path).toList.map fun older => (older, .job (.error .dropped)))

/-- Hands the output of a job to the caller that waits for it, if there is one. -/
def resolve (path : String) (output : JobOutput) : Dispatcher × List Reply :=
  match d.pending.get? path with
  | some caller =>
    ({ d with pending := d.pending.erase path }, [(caller, .job (.ok output))])
  | none => (d, [])

def takeCommand? : Option (Dispatcher × List Reply) :=
  match d.stage, d.commands with
  | .idle, .submit caller request :: rest =>
    some ({ d with commands := rest, stage := .calling caller request }, [])
  | .idle, .count caller :: rest =>
    some ({ d with commands := rest }, [(caller, .pending (.ok d.pending.size))])
  | _, _ => none

def called? (result : Except Error String) : Option (Dispatcher × List Reply) :=
  match d.stage with
  | .calling caller _ =>
    match result with
    | .ok path => some ({ d with stage := .idle }.expect path caller)
    | .error e => some ({ d with stage := .idle }, [(caller, .job (.error e))])
  | _ => none

def route (item : Except Error Signal) : Dispatcher × List Reply :=
  match item with
  | .error e => ({ d with stage := .collecting (.fault e) }, [])
  | .ok signal =>
    match signal.completion?, signal.update? with
    | some (path, output), _ => d.resolve path output
    | none, some u => ({ d with stage := .collecting (.value u) }, [])
    | none, none => (d, [])

def takeSignal? : Option (Dispatcher × List Reply) :=
  match d.stage, d.signals with
  | .idle, item :: rest => some ({ d with signals := rest }.route item)
  | _, _ => none

/-- Whether the dispatcher finds one of its two sources at its end. -/
def mayStop (reachable : Bool) : Bool :=
  d.isIdle && (d.commands.isEmpty && !reachable || d.signals.isEmpty && d.ended)

def stop : Dispatcher × List Reply :=
  ({ d with commands := [], signals := [], pending := .empty, stage := .stopped },
    (d.pending.entries.map fun e => (e.2, .job (.error .dropped))) ++
      d.commands.map Command.refusal)

end Dispatcher

end UnitControl
