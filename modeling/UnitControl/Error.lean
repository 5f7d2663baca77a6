import UnitControl.Duration

/-!
# Errors

What a call on the engine can fail with, by cause, and the text of each.
-/

namespace UnitControl

inductive Error
  | invalidInput (context : String)
  | permissionDenied (action detail : String)
  | unitNotFound (unit : String)
  | jobTimeout (unit : String) (limit : Duration)
  | timeout (action : String) (limit : Duration)
  | backendUnavailable (backend detail : String)
  | dbusError (name message : String)
  | ioError (context : String)
  | signalDecode (signal detail : String)
  | disconnected (context : String)
  deriving DecidableEq, Repr

namespace Error

def message : Error → String
  | invalidInput context => "invalid input: " ++ context
  | permissionDenied action detail => "permission denied for " ++ action ++ ": " ++ detail
  | unitNotFound unit => "unit not found: " ++ unit
  | jobTimeout unit limit => "job timeout for " ++ unit ++ ": " ++ limit.text
  | timeout action limit => "timeout for " ++ action ++ ": " ++ limit.text
  | backendUnavailable backend detail => "backend unavailable (" ++ backend ++ "): " ++ detail
  | dbusError name message => "dbus error " ++ name ++ ": " ++ message
  | ioError context => "io error: " ++ context
  | signalDecode signal detail => "signal decode error for " ++ signal ++ ": " ++ detail
  | disconnected context => "engine disconnected: " ++ context

def stopped : Error := disconnected "dispatcher stopped"

/-- The dispatcher let go of a request that it had taken. -/
def dropped : Error := disconnected "job result dropped before completion"

/-- A background task was started where no runtime exists, for a cause that the runtime gives. -/
def noRuntime (task cause : String) : Error :=
  backendUnavailable "tokio" ("spawn " ++ task ++ " worker outside a tokio runtime: " ++ cause)

end Error

end UnitControl
