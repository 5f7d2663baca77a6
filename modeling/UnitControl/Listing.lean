import UnitControl.Table
import UnitControl.UnitStatus

/-!
# Listings and their changes

A snapshot is a listing by unit name. The changes between two snapshots are the units that are new
or count as changed, and the names that vanished; applied to the first snapshot they lead to the
second, as far as the predicate tells units apart.
-/

namespace UnitControl

abbrev Snapshot := Table String UnitStatus

abbrev Changes := Table String (Option UnitStatus)

namespace Snapshot

/-- Of two rows with one name the later counts. -/
def ofRows (rows : List UnitStatus) : Snapshot := .ofList (rows.map fun s => (s.name, s))

variable (isChanged : UnitStatus → UnitStatus → Bool)

def reports (previous current : Snapshot) : Changes :=
  current.filterMap fun name status =>
    match previous.get? name with
    | some old => if isChanged old status then some (some status) else none
    | none => some (some status)

def losses (previous current : Snapshot) : Changes :=
  previous.filterMap fun name _ => if current.contains name then none else some none

def diff (previous current : Snapshot) : Changes :=
  (reports isChanged previous current).putAll (losses previous current).entries

/-- The changes of each snapshot against the one before it, the first against the empty one. -/
def diffsFrom (previous : Snapshot) : List Snapshot → List Changes
  | [] => []
  | current :: rest => diff isChanged previous current :: diffsFrom current rest

def diffs (snapshots : List Snapshot) : List Changes := diffsFrom isChanged .empty snapshots

end Snapshot

/-- A subscriber's view of a listing after a message of changes. -/
def Changes.apply (changes : Changes) (view : Snapshot) : Snapshot :=
  changes.entries.foldl
    (fun view e =>
      match e.2 with
      | some status => view.put e.1 status
      | none => view.erase e.1)
    view

end UnitControl
