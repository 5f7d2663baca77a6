import UnitControl.State
import UnitControl.UnitPath

/-!
# Unit status

One unit as a listing shows it, and the ten columns in which the manager lists it. In the columns
an empty text stands for a missing one, and a job with number 0 or path `/` for no job.
-/

namespace UnitControl

structure UnitStatus where
  name : String
  description : Option String
  load : LoadState
  active : ActiveState
  sub : Option String
  followed : Option String
  path : String
  jobId : Option Nat
  jobType : Option String
  jobPath : Option String
  deriving DecidableEq, Repr

/-- A row of the manager's own listing. -/
structure UnitRow where
  name : String
  description : String
  load : String
  active : String
  sub : String
  followed : String
  path : String
  jobId : Nat
  jobType : String
  jobPath : String
  deriving DecidableEq, Repr

/-- An empty text counts as missing. -/
def nonEmpty (s : String) : Option String := if s = "" then none else some s

@[simp] theorem nonEmpty_empty : nonEmpty "" = none := rfl

theorem nonEmpty_eq_some_iff {s t : String} : nonEmpty s = some t ↔ s = t ∧ s ≠ "" := by
  unfold nonEmpty
  split <;> simp_all

@[simp] theorem getD_nonEmpty (s : String) : (nonEmpty s).getD "" = s := by
  unfold nonEmpty
  split <;> simp_all

namespace UnitStatus

/-- A unit of which nothing is known but its states. -/
def ofStates (name : String) (l : LoadState) (a : ActiveState) : UnitStatus where
  name
  description := none
  load := l
  active := a
  sub := none
  followed := none
  path := UnitPath.ofName name
  jobId := none
  jobType := none
  jobPath := none

/-- Whether a listing should report the second status as a change from the first: the job and the
unit that is followed do not count. -/
def differs (a b : UnitStatus) : Bool :=
  decide (a.name ≠ b.name ∨ a.description ≠ b.description ∨ a.load ≠ b.load ∨
    a.active ≠ b.active ∨ a.sub ≠ b.sub)

theorem differs_eq_false_iff (a b : UnitStatus) :
    differs a b = false ↔ a.name = b.name ∧ a.description = b.description ∧ a.load = b.load ∧
      a.active = b.active ∧ a.sub = b.sub := by
  simp [differs]

end UnitStatus

namespace UnitRow

def hasJob (r : UnitRow) : Bool := decide (r.jobId ≠ 0 ∧ r.jobPath ≠ "/")

def status (r : UnitRow) : UnitStatus where
  name := r.name
  description := nonEmpty r.description
  load := .ofWord r.load
  active := .ofWord r.active
  sub := nonEmpty r.sub
  followed := nonEmpty r.followed
  path := r.path
  jobId := if r.hasJob then some r.jobId else none
  jobType := if r.hasJob then nonEmpty r.jobType else none
  jobPath := if r.hasJob then some r.jobPath else none

def ofStatus (s : UnitStatus) : UnitRow where
  name := s.name
  description := s.description.getD ""
  load := s.load.word
  active := s.active.word
  sub := s.sub.getD ""
  followed := s.followed.getD ""
  path := s.path
  jobId := s.jobId.getD 0
  jobType := s.jobType.getD ""
  jobPath := s.jobPath.getD "/"

end UnitRow

end UnitControl
