import UnitControl.Engine.Step

/-!
# Callers that go away

A user may lose interest in a call that waits for the dispatcher. Its handle is gone with it; what
it has sent stays where it is, and the dispatcher finds nobody there when it replies.
-/

namespace UnitControl

/-- An event, or a caller that goes away without its answer. -/
inductive Act
  | event (event : Event)
  | vanish (caller : CallerId)

/-- The caller that goes away. -/
def Act.gone? : Act → Option CallerId
  | event _ => none
  | vanish caller => some caller

namespace Engine

variable (e : Engine)

/-- Only a caller that waits for the dispatcher can simply go: any other is in the middle of an
operation or of a call of its own. -/
def vanish? (caller : CallerId) : Option Engine :=
  match e.callers.get? caller with
  | some (.job _) | some .pending => some { e with callers := e.callers.erase caller }
  | _ => none

/-- The last handle may go with the caller, which wakes the dispatcher. -/
def act : Act → Option Engine
  | .event event => e.step event
  | .vanish caller => (e.vanish? caller).map fun e' =>
    if e.startles e' then { e' with dispatcher := e'.dispatcher.startle } else e'

/-- The engine after the acts of a run, each of which is possible. -/
def acts : Engine → List Act → Option Engine
  | e, [] => some e
  | e, a :: rest => (e.act a).bind (acts · rest)

theorem acts_append (e : Engine) (l₁ l₂ : List Act) :
    e.acts (l₁ ++ l₂) = (e.acts l₁).bind fun e => e.acts l₂ := by
  induction l₁ generalizing e with
  | nil => rfl
  | cons a rest ih =>
    simp only [List.cons_append, acts, Option.bind_assoc]
    exact congrArg (e.act a).bind (funext ih)

theorem acts_map_event (e : Engine) (events : List Event) :
    e.acts (events.map .event) = e.run events := by
  induction events generalizing e with
  | nil => rfl
  | cons event rest ih => exact congrArg (e.step event).bind (funext ih)

/-- The callers that have gone away, in their order. -/
def departed (l : List Act) : List CallerId := l.filterMap Act.gone?

end Engine

end UnitControl
