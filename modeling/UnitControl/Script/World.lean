import UnitControl.Engine.Schedule

/-!
# An engine on a bus

A responder answers the calls that the engine makes on the bus, by the events that its answer
consists of: signals that come before it or after it, and the answer itself. A call is answered in
the turn of the task that makes it. The tasks take turns until no turn is left.
-/

namespace UnitControl

structure Responder (σ : Type) where
  respond : σ → Request → σ × List Event
  /-- No response is longer. -/
  bound : σ → Nat

structure World (σ : Type) where
  bus : σ
  engine : Engine
  schedule : Schedule

namespace Entry

def request? : Entry → Option Request
  | asked request => some request
  | _ => none

end Entry

namespace World

variable {σ : Type} (R : Responder σ) (w : World σ)

/-- What has been written to the journal since an earlier state, in the order of its writing. -/
def newsSince (earlier later : Engine) : List Entry :=
  (later.journal.take (later.journal.length - earlier.journal.length)).reverse

def ask (w : World σ) (request : Request) : World σ × List Event :=
  let r := R.respond w.bus request
  ({ w with bus := r.1 }, r.2)

def askAll (w : World σ) : List Request → World σ × List Event
  | [] => (w, [])
  | request :: rest =>
    let r := ask R w request
    let r' := askAll r.1 rest
    (r'.1, r.2 ++ r'.2)

/-- One event, after which the turn goes on with the answers to the calls that it led to. -/
def perform (event : Event) : World σ :=
  match w.engine.step event with
  | some engine =>
    let schedule := w.schedule.follow event w.engine engine
    let r := askAll R { w with engine } ((newsSince w.engine engine).filterMap Entry.request?)
    { r.1 with schedule := schedule.resume r.2 }
  | none => w

def settleWithin (w : World σ) : Nat → World σ
  | 0 => w
  | fuel + 1 =>
    match w.schedule.turns with
    | [] => w
    | _ :: _ =>
      match w.schedule.next? w.engine with
      | some (event, schedule) => settleWithin (perform R { w with schedule } event) fuel
      | none => settleWithin { w with schedule := w.schedule.endTurn w.engine } fuel

/-- More steps than can follow the given number of events. Each signal and each command leads to
one round over the feeds, each task that waits to a few passes over the members of all sets, and
each poller to one listing; and a step calls for a few turns, each of which has an end. -/
def patience (events : Nat) : Nat :=
  let e := w.engine
  let members := (e.registry.sets.entries.flatMap fun s => s.2.members).length
  let work := events + e.dispatcher.signals.length + e.dispatcher.commands.length +
    e.queue.length + e.callers.size + e.outlets.size + e.pollers.size + 2
  6 * work * (R.bound w.bus + 2) * (e.outlets.size + 4 * members + 20)

/-- The events, and then all that the engine and its responder do by themselves. -/
def settle (events : List Event) : World σ :=
  let schedule := w.schedule.enqueue w.engine events
  settleWithin R { w with schedule } (patience R w events.length)

end World

end UnitControl
