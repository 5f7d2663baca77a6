import UnitControl.Script.Manager

/-!
# Reports

What a session shows after a step: the output of the step, the answers to earlier steps, and the
calls that the engine made meanwhile.
-/

namespace UnitControl

/-- What a consumer took from one channel, and whether it came to the end. -/
structure Taken (α : Type) where
  items : List α
  ended : Bool

inductive Output
  | nothing
  | waiting
  | answer (a : Answer)
  | flag (b : Option Bool)
  | updates (values : Option (Taken Update)) (faults : Option (Taken Error))
  | changes (values : Option (Taken Changes)) (faults : Option (Taken Error))
  | rules (counts : List (MatchRule × Int))
  | text (s : String)
  /-- The step is about something that the session does not have. -/
  | unknown (what : String)

structure Report where
  output : Output
  /-- Earlier steps that were answered meanwhile, by name. -/
  done : List (String × Answer)
  jobs : List JobRequest
  added : List String
  removed : List String
  lists : Nat

namespace Report

/-- The rule texts of the calls of one kind, in order. -/
def ruleTexts (entries : List Entry) (pick : MatchCall → Option MatchRule) : List String :=
  (entries.filterMap fun
    | .asked (.matchRule call) => (pick call).map MatchRule.text
    | _ => none).mergeSort

def ofEntries (output : Output) (names : Table CallerId String) (entries : List Entry) :
    Report where
  output
  done := entries.filterMap fun
    | .answered id a => (names.get? id).map fun name => (name, a)
    | _ => none
  jobs := entries.filterMap fun
    | .asked (.job _ request) => some request
    | _ => none
  added := ruleTexts entries fun
    | .add unit => some (.unit unit)
    | .remove _ => none
  removed := ruleTexts entries fun
    | .remove unit => some (.unit unit)
    | .add _ => none
  lists := (entries.filter fun
    | .asked (.list _) => true
    | _ => false).length

def silent (output : Output) : Report := ⟨output, [], [], [], [], 0⟩

end Report

end UnitControl
