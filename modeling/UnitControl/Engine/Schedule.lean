import UnitControl.Engine.Step
import UnitControl.WaitingRoom

/-!
# Schedules

The tasks of an engine take turns. A task that can go on joins the end of the line, unless it is in
it, and goes on in its turn for as long as it can. A task that wants the registry gets it if it is
free in the turn of the task; otherwise the task takes a seat in a waiting room, and whoever lets
the registry go calls the task that sits lowest there into the line.
-/

namespace UnitControl

/-- A turn of a task, or of somebody outside, which begins with the given events. -/
structure Turn where
  task : Option Task
  events : List Event

structure Schedule where
  /-- The first turn is under way. -/
  turns : List Turn
  room : WaitingRoom Task
  /-- The tasks with a deadline, in the order in which they got it. -/
  timed : List Task

/-- The task that an event lets go on at once. -/
def Event.owner? (e : Engine) : Event → Option Task
  | .call _ => some (.caller e.fresh)
  | .poll .. => some (.poller e.fresh)
  | .jobReturned _ => some .dispatcher
  | .matchReturned _ => e.holder.map Holder.task
  | .listReturned task _ => some task
  | _ => none

/-- Whether a task has the registry during an event. -/
def Event.usesRegistry : Event → Bool
  | .grant _ | .matchReturned _ => true
  | _ => false

namespace Schedule

def empty : Schedule := ⟨[], .empty, []⟩

variable (s : Schedule)

def wake (task : Task) : Schedule :=
  if s.turns.any fun turn => turn.task == some task then s
  else { s with turns := s.turns ++ [⟨some task, []⟩] }

def wakeAll (tasks : List Task) : Schedule := tasks.foldl wake s

def enqueue (e : Engine) (events : List Event) : Schedule :=
  { s with turns := s.turns ++ events.map fun event => ⟨event.owner? e, [event]⟩ }

def resume (events : List Event) : Schedule :=
  match s.turns with
  | turn :: rest => { s with turns := { turn with events := events ++ turn.events } :: rest }
  | [] => { s with turns := [⟨none, events⟩] }

/-- The tasks that a step wakes: the lowest in the waiting room when the registry is let go, those
that want the registry and have no seat yet, the dispatcher when it is startled, and those that can
go on, of which those with a deadline come in the order of their deadlines. -/
def woken (event : Event) (before after : Engine) : List Task :=
  let called := if event.usesRegistry && after.holder.isNone then s.room.first?.toList else []
  let newcomers := after.queue.filter fun task => !s.room.contains task
  let startled := if before.startles after then [.dispatcher] else []
  let timed := s.timed.mergeSort fun t u => (after.deadline? t).getD 0 ≤ (after.deadline? u).getD 0
  let able := (.dispatcher :: timed ++ after.clients).filter fun task =>
    !after.queue.contains task && (after.next? task).isSome
  called ++ newcomers ++ startled ++ able

/-- The schedule after a step of the engine. -/
def follow (event : Event) (before after : Engine) : Schedule :=
  let hasDeadline (task : Task) : Bool := (after.deadline? task).isSome
  let room := match event with
    | .grant task => s.room.leave task
    | _ => s.room
  let timed := s.timed.filter hasDeadline ++
    after.clients.filter fun task => hasDeadline task && !s.timed.contains task
  let s := { s with room, timed }
  s.wakeAll (s.woken event before after)

/-- The next event of the turn under way. -/
def next? (e : Engine) : Option (Event × Schedule) :=
  match s.turns with
  | ⟨task, event :: events⟩ :: rest => some (event, { s with turns := ⟨task, events⟩ :: rest })
  | ⟨some task, []⟩ :: _ => (e.next? task).map fun event => (event, s)
  | ⟨none, []⟩ :: _ | [] => none

/-- A task that wants the registry at the end of its turn takes a seat, unless it has one. -/
def seat (e : Engine) (task : Task) : Schedule :=
  if e.queue.contains task && !s.room.contains task then { s with room := s.room.enter task }
  else s

/-- Ends the turn under way. -/
def endTurn (e : Engine) : Schedule :=
  match s.turns with
  | ⟨some task, _⟩ :: rest => { s with turns := rest }.seat e task
  | ⟨none, _⟩ :: rest => { s with turns := rest }
  | [] => s

end Schedule

end UnitControl
