import UnitControl.Listing
import UnitControl.Channel
import UnitControl.Clock
import UnitControl.Registry

/-!
# Polling subscriptions

A poller lists the units, sends what changed since its last successful listing, or the error of a
failed one, and sleeps for what is left of its interval. It goes on while somebody listens on one of
its two channels, and looks at that only before it lists.
-/

namespace UnitControl

abbrev PollerId := Nat

/-- Which units of a listing a poller looks at. -/
inductive Scope
  | all
  | named (keep : String → Bool)
  /-- The members that a set has when the listing comes in. -/
  | membersOf (s : SetId)

/-- What a listing shows to a poller whose set, if its scope is one, has these members. -/
def Scope.rows (scope : Scope) (members : List String) (rows : List UnitStatus) :
    List UnitStatus :=
  match scope with
  | all => rows
  | named keep => rows.filter fun s => keep s.name
  | membersOf _ => rows.filter fun s => decide (s.name ∈ members)

namespace Poller

inductive Stage
  /-- The task has not run yet. -/
  | starting
  | listing
  /-- Waits for the registry to tell the members of its set. -/
  | scoping (rows : List UnitStatus)
  | blocked (lane : Lane)
  | sleeping (wake : Nat)
  | ended

end Poller

structure Poller where
  interval : Duration
  isChanged : UnitStatus → UnitStatus → Bool
  scope : Scope
  previous : Snapshot
  feed : Feed Changes
  /-- What the clock showed at the start of the listing. -/
  started : Nat
  stage : Poller.Stage

namespace Poller

/-- Why a poller cannot be started, if it cannot. -/
def check (interval : Duration) (refusal : Option String) : Except Error Unit :=
  if interval = .zero then .error (.invalidInput "interval must be > 0")
  else
    match refusal with
    | none => .ok ()
    | some cause => .error (.noRuntime "unitlink-poll" cause)

def start (interval : Duration) (capacity : Nat) (isChanged : UnitStatus → UnitStatus → Bool)
    (scope : Scope) : Poller :=
  ⟨interval, isChanged, scope, .empty, .ofCapacities capacity capacity, 0, .starting⟩

variable (p : Poller)

/-- What is left of the interval that began with the listing. -/
def left (clock : Clock) : Duration := ⟨p.interval.nanos - (clock.shown - p.started)⟩

/-- The stage of a poller that has sent what it had to send. -/
def asleep (clock : Clock) : Stage := .sleeping (clock.due (p.left clock))

def send (clock : Clock) (parcel : Parcel Changes) : Poller :=
  let feed := p.feed.send parcel
  { p with
    feed
    stage := if feed.parked parcel.lane then .blocked parcel.lane else p.asleep clock }

def publish (clock : Clock) (rows : List UnitStatus) : Poller :=
  let current := Snapshot.ofRows rows
  { p with previous := current }.send clock
    (.value (Snapshot.diff p.isChanged p.previous current))

/-- The poller is to look for listeners, since it starts or has slept enough. -/
def isDue (clock : Clock) : Bool :=
  match p.stage with
  | .starting => true
  | .sleeping wake => decide (wake ≤ clock.now)
  | _ => false

/-- A poller lists if somebody listens, and ends otherwise. -/
def look (clock : Clock) : Poller :=
  if p.feed.deserted then { p with stage := .ended }
  else { p with started := clock.shown, stage := .listing }

/-- What happens to a poller. The first four are its own doing, at a time that the clock shows. -/
inductive Event
  /-- The end of the listing that is out. -/
  | listed (clock : Clock) (result : Except Error (List UnitStatus))
  /-- The registry tells the members of the set that is its scope. -/
  | scoped (clock : Clock) (members : List String)
  /-- The send for which it waited is over. -/
  | unblock (clock : Clock)
  /-- It starts, or wakes. -/
  | wake (clock : Clock)
  /-- A consumer takes one message. -/
  | take (lane : Lane)
  /-- A consumer drops a receiving end. -/
  | hangUp (lane : Lane)

def step : Event → Option Poller
  | .listed clock result =>
    match p.stage, result, p.scope with
    | .listing, .error e, _ => some (p.send clock (.fault e))
    | .listing, .ok rows, .membersOf _ => some { p with stage := .scoping rows }
    | .listing, .ok rows, scope => some (p.publish clock (scope.rows [] rows))
    | _, _, _ => none
  | .scoped clock members =>
    match p.stage with
    | .scoping rows => some (p.publish clock (p.scope.rows members rows))
    | _ => none
  | .unblock clock =>
    match p.stage with
    | .blocked lane =>
      if p.feed.parked lane then none else some { p with stage := p.asleep clock }
    | _ => none
  | .wake clock => if p.isDue clock then some (p.look clock) else none
  | .take lane => (p.feed.take? lane).map fun feed => { p with feed }
  | .hangUp lane => some { p with feed := p.feed.hangUp lane }

def run : Poller → List Event → Option Poller
  | p, [] => some p
  | p, event :: rest => (p.step event).bind (run · rest)

def isListing : Bool :=
  match p.stage with
  | .listing => true
  | _ => false

def isScoping : Bool :=
  match p.stage with
  | .scoping _ => true
  | _ => false

end Poller

end UnitControl
