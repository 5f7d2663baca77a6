/-!
# State words

The vocabularies in which the manager reports the state of a unit and the result of a job. Each is
open: a word outside it is kept as it came.
-/

namespace UnitControl

inductive LoadState
  | loaded
  | notFound
  | error
  | masked
  | stub
  | merged
  | generated
  | transient
  | badSetting
  | unknown (word : String)
  deriving DecidableEq, Repr

namespace LoadState

def word : LoadState → String
  | loaded => "loaded"
  | notFound => "not-found"
  | error => "error"
  | masked => "masked"
  | stub => "stub"
  | merged => "merged"
  | generated => "generated"
  | transient => "transient"
  | badSetting => "bad-setting"
  | unknown w => w

def ofWord : String → LoadState
  | "loaded" => loaded
  | "not-found" => notFound
  | "error" => error
  | "masked" => masked
  | "stub" => stub
  | "merged" => merged
  | "generated" => generated
  | "transient" => transient
  | "bad-setting" => badSetting
  | w => unknown w

end LoadState

inductive ActiveState
  | active
  | reloading
  | inactive
  | failed
  | activating
  | deactivating
  | maintenance
  | unknown (word : String)
  deriving DecidableEq, Repr

namespace ActiveState

def word : ActiveState → String
  | active => "active"
  | reloading => "reloading"
  | inactive => "inactive"
  | failed => "failed"
  | activating => "activating"
  | deactivating => "deactivating"
  | maintenance => "maintenance"
  | unknown w => w

def ofWord : String → ActiveState
  | "active" => active
  | "reloading" => reloading
  | "inactive" => inactive
  | "failed" => failed
  | "activating" => activating
  | "deactivating" => deactivating
  | "maintenance" => maintenance
  | w => unknown w

end ActiveState

end UnitControl
