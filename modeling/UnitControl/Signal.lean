import UnitControl.Job
import UnitControl.Properties

/-!
# Signals

The broadcasts of the manager and of unit objects, and the update that each of them means to the
subscribers of a unit.
-/

namespace UnitControl

inductive Signal
  | jobRemoved (id : Nat) (job unit result : String)
  | unitNew (unit path : String)
  | propertiesChanged (path interface : String) (changed : Properties)
      (invalidated : List String)
  | other (interface member : String)

def unitInterface : String := "org.freedesktop.systemd1.Unit"

namespace Signal

/-- The update for subscribers: a new unit is one without properties, and properties count only if
they are those of a unit object. -/
def update? : Signal → Option Update
  | unitNew unit _ => some (.created unit)
  | propertiesChanged path interface changed _ =>
    if interface = unitInterface then (UnitPath.toName? path).map fun unit => ⟨unit, changed⟩
    else none
  | jobRemoved .. | other .. => none

/-- The job whose end a signal reports, with its output. -/
def completion? : Signal → Option (String × JobOutput)
  | jobRemoved _ job _ result => some (job, .ofWord result)
  | _ => none

end Signal

end UnitControl
