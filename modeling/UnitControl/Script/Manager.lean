import UnitControl.Bus.MatchRule
import UnitControl.Script.World

/-!
# A manager that follows a script

It answers job calls with paths of its own making and reports the end of each job at once, lists
units from a list of listings, keeps account of the match rules, and holds calls back at a gate.
-/

namespace UnitControl

inductive Gate
  | call
  | add
  | remove
  | list
  deriving DecidableEq, Repr

def Request.gate : Request → Gate
  | job .. => .call
  | matchRule (.add _) => .add
  | matchRule (.remove _) => .remove
  | list _ => .list

structure Manager where
  /-- The result that every job ends with, if jobs end by themselves. -/
  complete : Option String
  /-- How often the end of a job is reported. -/
  times : Nat
  lastJob : Nat
  /-- Job paths to be used first. -/
  paths : List String
  failingMethods : List (String × Error)
  failingAdds : List MatchRule
  failingRemoves : List MatchRule
  listings : List (Except Error (List UnitStatus))
  /-- The last listing that succeeded, which is repeated when no other is left. -/
  lastListing : List UnitStatus
  gates : List Gate
  /-- The calls that wait at a gate, the oldest first. -/
  held : List Request
  /-- How often each rule was added, less how often it was removed. -/
  rules : Table MatchRule Int

/-- Changes to a script; the listings are added to those that are left. -/
structure Manager.Change where
  complete : Option (Option String)
  times : Option Nat
  lastJob : Option Nat
  paths : Option (List String)
  failingMethods : Option (List (String × Error))
  failingAdds : Option (List MatchRule)
  failingRemoves : Option (List MatchRule)
  listings : List (Except Error (List UnitStatus))
  gates : Option (List Gate)

namespace Manager

def initial : Manager where
  complete := some "done"
  times := 1
  lastJob := 0
  paths := []
  failingMethods := []
  failingAdds := []
  failingRemoves := []
  listings := []
  lastListing := []
  gates := []
  held := []
  rules := .empty

variable (m : Manager)

def configure (c : Change) : Manager :=
  { m with
    complete := c.complete.getD m.complete
    times := c.times.getD m.times
    lastJob := c.lastJob.getD m.lastJob
    paths := c.paths.getD m.paths
    failingMethods := c.failingMethods.getD m.failingMethods
    failingAdds := c.failingAdds.getD m.failingAdds
    failingRemoves := c.failingRemoves.getD m.failingRemoves
    listings := m.listings ++ c.listings
    gates := c.gates.getD m.gates }

def rejection (method : String) (rule : MatchRule) : Error :=
  .dbusError "org.freedesktop.DBus.Error.LimitsExceeded" (method ++ " rejected: " ++ rule.text)

def jobPath (n : Nat) : String := "/org/freedesktop/systemd1/job/" ++ toString n

def callJob (request : JobRequest) : Manager × List Event :=
  match m.failingMethods.lookup request.method with
  | some e => (m, [.jobReturned (.error e)])
  | none =>
    let n := m.lastJob + 1
    let (path, paths) := match m.paths with
      | [] => (jobPath n, [])
      | path :: rest => (path, rest)
    let ends := match m.complete with
      | some result =>
        List.replicate m.times (.signal (.ok (.jobRemoved n path request.unit result)))
      | none => []
    ({ m with lastJob := n, paths }, ends ++ [.jobReturned (.ok path)])

def countRule (rule : MatchRule) (change : Int) : Manager :=
  { m with rules := m.rules.put rule ((m.rules.get? rule).getD 0 + change) }

def addRule (rule : MatchRule) : Manager × Except Error Unit :=
  if rule ∈ m.failingAdds then (m, .error (rejection "AddMatch" rule))
  else (m.countRule rule 1, .ok ())

def removeRule (rule : MatchRule) : Manager × Except Error Unit :=
  if rule ∈ m.failingRemoves then (m, .error (rejection "RemoveMatch" rule))
  else (m.countRule rule (-1), .ok ())

def listUnits : Manager × Except Error (List UnitStatus) :=
  match m.listings with
  | [] => (m, .ok m.lastListing)
  | .ok rows :: rest => ({ m with listings := rest, lastListing := rows }, .ok rows)
  | .error e :: rest => ({ m with listings := rest }, .error e)

/-- Answers a call that no gate holds back. -/
def serve (request : Request) : Manager × List Event :=
  match request with
  | .job _ request => m.callJob request
  | .matchRule (.add unit) =>
    let r := m.addRule (.unit unit)
    (r.1, [.matchReturned r.2])
  | .matchRule (.remove unit) =>
    let r := m.removeRule (.unit unit)
    (r.1, [.matchReturned r.2])
  | .list task =>
    let r := m.listUnits
    (r.1, [.listReturned task r.2])

def respond (request : Request) : Manager × List Event :=
  if request.gate ∈ m.gates then ({ m with held := m.held ++ [request] }, [])
  else m.serve request

def responder : Responder Manager where
  respond := respond
  bound m := m.times + 1

def serveAll (m : Manager) : List Request → Manager × List Event
  | [] => (m, [])
  | request :: rest =>
    let r := m.serve request
    let r' := serveAll r.1 rest
    (r'.1, r.2 ++ r'.2)

/-- Lets the oldest calls at a gate go on. -/
def release (gate : Gate) (n : Nat) : Manager × List Event :=
  let freed := (m.held.filter fun q => q.gate == gate).take n
  serveAll { m with held := m.held.filter fun q => !freed.contains q } freed

end Manager

end UnitControl
