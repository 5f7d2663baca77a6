import UnitControl.Proofs.Engine.Attendance
import UnitControl.Proofs.Engine.Disconnection

/-!
# Shutting down

The dispatcher stops when the signals have ended or when nobody is left who could send it a command,
and then turns away everybody who waits for it, and whoever comes later.
-/

namespace UnitControl

namespace Engine

variable {e e' : Engine} {a : Act} {l : List Act}

end Engine

end UnitControl
