/-!
# Jobs

A job is a unit of work that the manager queues for a request and names by an object path; the
word with which it ends is its output.
-/

namespace UnitControl

inductive JobOutput
  | done
  | canceled
  | timeout
  | failed
  | dependency
  | skipped
  | other (word : String)
  deriving DecidableEq, Repr

namespace JobOutput

def word : JobOutput → String
  | done => "done"
  | canceled => "canceled"
  | timeout => "timeout"
  | failed => "failed"
  | dependency => "dependency"
  | skipped => "skipped"
  | other w => w

def ofWord : String → JobOutput
  | "done" => done
  | "canceled" => canceled
  | "timeout" => timeout
  | "failed" => failed
  | "dependency" => dependency
  | "skipped" => skipped
  | w => other w

def isDone (o : JobOutput) : Bool := o == done

end JobOutput

/-- How a new job meets the jobs that are queued already. -/
inductive StartMode
  | replace
  | fail
  | isolate
  | ignoreDependencies
  | ignoreRequirements
  | other (word : String)
  deriving DecidableEq, Repr

def StartMode.word : StartMode → String
  | replace => "replace"
  | fail => "fail"
  | isolate => "isolate"
  | ignoreDependencies => "ignore-dependencies"
  | ignoreRequirements => "ignore-requirements"
  | other w => w

structure JobRequest where
  method : String
  args : List String
  deriving DecidableEq, Repr

namespace JobRequest

/-- The unit that a request is about: its first argument. -/
def unit (r : JobRequest) : String := r.args.headD ""

def text (r : JobRequest) : String := r.method ++ "(" ++ ", ".intercalate r.args ++ ")"

end JobRequest

inductive JobKind
  | start
  | stop
  | restart
  | reload
  | tryRestart
  | reloadOrRestart
  | reloadOrTryRestart
  deriving DecidableEq, Repr

namespace JobKind

def method : JobKind → String
  | start => "StartUnit"
  | stop => "StopUnit"
  | restart => "RestartUnit"
  | reload => "ReloadUnit"
  | tryRestart => "TryRestartUnit"
  | reloadOrRestart => "ReloadOrRestartUnit"
  | reloadOrTryRestart => "ReloadOrTryRestartUnit"

/-- The request for a job of this kind on a unit with a canonical name. -/
def request (kind : JobKind) (unit : String) (mode : StartMode) : JobRequest :=
  ⟨kind.method, [unit, mode.word]⟩

end JobKind

end UnitControl
