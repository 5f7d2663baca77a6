import UnitControl.Signal
import UnitControl.Channel

/-!
# The registry of subscriptions

Sets of units with at most one sink each, subscriptions of single units, and for every unit the
number of references that they hold on it. While a set is attached each of its members counts.
-/

namespace UnitControl

abbrev SetId := Nat

/-- A subscription is known by the feed on which it delivers. -/
abbrev FeedId := Nat

structure UnitSet where
  members : List String
  distinct : members.Nodup
  attached : Bool
  sink : Option FeedId
  deriving DecidableEq

namespace UnitSet

/-- A set starts without members and attached. -/
def new : UnitSet := ⟨[], by simp, true, none⟩

variable (x : UnitSet)

def join (unit : String) : UnitSet :=
  if h : unit ∈ x.members then x
  else
    { x with
      members := x.members ++ [unit]
      distinct := List.nodup_append.2 ⟨x.distinct, by simp, by
        intro a ha b hb hab
        simp only [List.mem_singleton] at hb
        exact h (hb ▸ hab ▸ ha)⟩ }

def leave (unit : String) : UnitSet :=
  { x with
    members := x.members.filter fun m => decide (m ≠ unit)
    distinct := x.distinct.sublist List.filter_sublist }

theorem mem_members_join (unit m : String) :
    m ∈ (x.join unit).members ↔ m = unit ∨ m ∈ x.members := by
  unfold join
  split
  · rename_i h
    exact ⟨Or.inr, fun hm => hm.elim (fun he => he ▸ h) id⟩
  · simp [or_comm]

theorem mem_members_leave (unit m : String) :
    m ∈ (x.leave unit).members ↔ m ≠ unit ∧ m ∈ x.members := by
  simp [leave, and_comm]

end UnitSet

structure Registry where
  sets : Table SetId UnitSet
  directs : Table FeedId String
  counts : Table String Nat
  deriving DecidableEq

namespace Registry

def empty : Registry := ⟨.empty, .empty, .empty⟩

variable (r : Registry)

/-- A set that was never touched is a new one. -/
def set (s : SetId) : UnitSet := (r.sets.get? s).getD .new

def members (s : SetId) : List String := (r.set s).members

/-- The references held on a unit. -/
def count (unit : String) : Nat := (r.counts.get? unit).getD 0

/-- How many attached sets and single subscriptions are entitled to a reference on the unit. -/
def holders (unit : String) : Nat :=
  (r.sets.entries.countP fun e => e.2.attached && decide (unit ∈ e.2.members)) +
    r.directs.entries.countP fun e => decide (e.2 = unit)

def putSet (s : SetId) (x : UnitSet) : Registry := { r with sets := r.sets.put s x }

def join (s : SetId) (unit : String) : Registry := r.putSet s ((r.set s).join unit)

/-- A set with a sink is attached. -/
def install (s : SetId) (feed : FeedId) : Registry :=
  r.putSet s { r.set s with attached := true, sink := some feed }

def addDirect (feed : FeedId) (unit : String) : Registry :=
  { r with directs := r.directs.put feed unit }

def hold (unit : String) : Registry :=
  { r with counts := r.counts.put unit (r.count unit + 1) }

/-- Lets one reference go, and tells whether it was the last. -/
def letGo (unit : String) : Registry × Bool :=
  match r.counts.get? unit with
  | none => (r, false)
  | some n =>
    if 1 < n then ({ r with counts := r.counts.put unit (n - 1) }, false)
    else ({ r with counts := r.counts.erase unit }, true)

/-- The feeds on which a parcel is to be delivered: an update goes to every sink whose set has the
unit and to the unit's own subscriptions, an error to every sink. -/
def targets : Parcel Update → List FeedId
  | .value u =>
    (r.sets.entries.filterMap fun e => if u.unit ∈ e.2.members then e.2.sink else none) ++
      r.directs.entries.filterMap fun e => if e.2 = u.unit then some e.1 else none
  | .fault _ => r.sets.entries.filterMap fun e => e.2.sink

theorem set_putSet (s : SetId) (x : UnitSet) (t : SetId) :
    (r.putSet s x).set t = if t = s then x else r.set t := by
  simp only [set, putSet, Table.get?_put]
  split <;> rfl

theorem count_hold (unit v : String) :
    (r.hold unit).count v = if v = unit then r.count v + 1 else r.count v := by
  simp only [hold, count, Table.get?_put]
  split <;> simp_all

theorem count_letGo (unit v : String) :
    (r.letGo unit).1.count v = if v = unit then r.count v - 1 else r.count v := by
  unfold letGo
  cases h : r.counts.get? unit with
  | none =>
    by_cases hv : v = unit
    · subst hv
      simp [count, h]
    · simp [hv]
  | some n =>
    by_cases hv : v = unit
    · subst hv
      by_cases hn : 1 < n
      · simp [hn, count, h]
      · simp only [hn, if_false, count, Table.get?_erase, h]
        simp only [if_true, Option.getD_some, Option.getD_none]
        omega
    · by_cases hn : 1 < n <;> simp [hn, hv, count, Table.get?_put, Table.get?_erase]

end Registry

end UnitControl
