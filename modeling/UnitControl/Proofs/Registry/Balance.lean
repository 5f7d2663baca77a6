import UnitControl.Registry.Operation
import UnitControl.Proofs.Table
import Mathlib.Data.List.Nodup
import Mathlib.Data.List.Perm.Basic

/-!
# The balance of references

Between two operations the references counted for a unit are exactly those that attached sets and
single subscriptions are entitled to. An operation that waits for the bus has some to spare: those
of members that it has taken already, or those that it has still to let go.
-/

namespace UnitControl

/-- Whether a set is entitled to a reference on a unit. -/
def UnitSet.claims (x : UnitSet) (unit : String) : Bool :=
  x.attached && decide (unit ∈ x.members)

namespace Registry

variable {r : Registry}

theorem toList_claims (r : Registry) (s : SetId) (unit : String) :
    ((r.sets.get? s).toList.countP fun x => x.claims unit) = ((r.set s).claims unit).toNat := by
  cases h : r.sets.get? s with
  | none => simp [set, h, UnitSet.claims, UnitSet.new]
  | some x => cases hx : x.claims unit <;> simp [set, h, hx]

theorem holders_putSet (r : Registry) (s : SetId) (x : UnitSet) (unit : String) :
    (r.putSet s x).holders unit + ((r.set s).claims unit).toNat =
      r.holders unit + (x.claims unit).toNat := by
  have h := r.sets.countP_put s x fun e => e.2.claims unit
  rw [toList_claims] at h
  simp only [holders, putSet, UnitSet.claims] at h ⊢
  omega

theorem holders_eraseSet (r : Registry) (s : SetId) (unit : String) :
    { r with sets := r.sets.erase s }.holders unit + ((r.set s).claims unit).toNat =
      r.holders unit := by
  have h := r.sets.countP_erase s fun e => e.2.claims unit
  rw [toList_claims] at h
  simp only [holders, UnitSet.claims] at h ⊢
  omega

theorem holders_addDirect {feed : FeedId} (h : r.directs.get? feed = none) (v unit : String) :
    (r.addDirect feed v).holders unit = r.holders unit + (decide (v = unit)).toNat := by
  have hp := r.directs.countP_put feed v fun e => decide (e.2 = unit)
  rw [h] at hp
  simp only [Option.toList_none, List.countP_nil] at hp
  simp only [holders, addDirect]
  omega

theorem holders_eraseDirect {feed : FeedId} {v : String} (h : r.directs.get? feed = some v)
    (unit : String) :
    { r with directs := r.directs.erase feed }.holders unit + (decide (v = unit)).toNat =
      r.holders unit := by
  have hp := r.directs.countP_erase feed fun e => decide (e.2 = unit)
  rw [h] at hp
  simp only [Option.toList_some, List.countP_singleton] at hp
  simp only [holders]
  cases hv : decide (v = unit) <;> simp only [hv, if_true, Bool.false_eq_true, if_false] at hp <;>
    simp <;> omega

@[simp] theorem holders_hold (r : Registry) (v unit : String) :
    (r.hold v).holders unit = r.holders unit := rfl

@[simp] theorem sets_letGo (r : Registry) (v : String) : (r.letGo v).1.sets = r.sets := by
  unfold letGo
  split
  · rfl
  · split <;> rfl

@[simp] theorem directs_letGo (r : Registry) (v : String) :
    (r.letGo v).1.directs = r.directs := by
  unfold letGo
  split
  · rfl
  · split <;> rfl

@[simp] theorem holders_letGo (r : Registry) (v unit : String) :
    (r.letGo v).1.holders unit = r.holders unit := by
  simp [holders]

@[simp] theorem set_hold (r : Registry) (v : String) (s : SetId) : (r.hold v).set s = r.set s := rfl

@[simp] theorem count_putSet (r : Registry) (s : SetId) (x : UnitSet) (unit : String) :
    (r.putSet s x).count unit = r.count unit := rfl

end Registry

namespace UnitSet

variable (x : UnitSet)

theorem claims_join (v unit : String) :
    (x.join v).claims unit = (x.attached && decide (unit = v ∨ unit ∈ x.members)) := by
  have ha : (x.join v).attached = x.attached := by
    unfold join
    split <;> rfl
  simp only [claims, ha, mem_members_join]

theorem claims_leave (v unit : String) :
    (x.leave v).claims unit = (x.claims unit && decide (unit ≠ v)) := by
  have ha : (x.leave v).attached = x.attached := rfl
  simp only [claims, ha, mem_members_leave, Bool.decide_and, Bool.and_assoc]
  rw [Bool.and_comm (decide (unit ≠ v))]

theorem toNat_claims (unit : String) :
    (x.claims unit).toNat = if x.attached then x.members.count unit else 0 := by
  by_cases hm : unit ∈ x.members
  · cases ha : x.attached <;> simp [claims, hm, ha, List.count_eq_one_of_mem x.distinct hm]
  · cases ha : x.attached <;> simp [claims, hm, ha, List.count_eq_zero_of_not_mem hm]

end UnitSet

namespace Registry

variable {r : Registry}

theorem stored_hold (h : ∀ unit, r.counts.get? unit ≠ some 0) (v unit : String) :
    (r.hold v).counts.get? unit ≠ some 0 := by
  simp only [hold, Table.get?_put]
  split
  · simp
  · exact h unit

theorem stored_letGo (h : ∀ unit, r.counts.get? unit ≠ some 0) (v unit : String) :
    (r.letGo v).1.counts.get? unit ≠ some 0 := by
  unfold letGo
  cases hv : r.counts.get? v with
  | none => exact h unit
  | some n =>
    by_cases hn : 1 < n
    · simp only [hn, if_true, Table.get?_put]
      split
      · simp only [ne_eq, Option.some.injEq]
        omega
      · exact h unit
    · simp only [hn, if_false, Table.get?_erase]
      split
      · simp
      · exact h unit

/-- The counts of a registry are what its sets and subscriptions are entitled to, and one more for
each reference in `spare`. -/
structure Balanced (r : Registry) (spare : List String) : Prop where
  count_eq : ∀ unit, r.count unit = r.holders unit + spare.count unit
  stored_ne_zero : ∀ unit, r.counts.get? unit ≠ some 0

theorem balanced_empty : empty.Balanced [] := ⟨fun _ => rfl, fun _ h => by simp [empty] at h⟩

theorem Balanced.perm {spare spare' : List String} (h : r.Balanced spare)
    (hp : spare.Perm spare') : r.Balanced spare' :=
  ⟨fun unit => hp.count_eq unit ▸ h.count_eq unit, h.stored_ne_zero⟩

theorem Balanced.hold {spare : List String} (h : r.Balanced spare) (v : String) :
    (r.hold v).Balanced (v :: spare) := by
  constructor
  · intro unit
    have hc := h.count_eq unit
    rw [count_hold, holders_hold, List.count_cons]
    by_cases hv : unit = v
    · subst hv
      simp only [if_true, beq_self_eq_true]
      omega
    · have hv' : v ≠ unit := Ne.symm hv
      simp [hv, hv', hc]
  · exact stored_hold h.stored_ne_zero v

theorem Balanced.count_pos {spare : List String} {v : String} (h : r.Balanced (v :: spare)) :
    0 < r.count v := by
  have hc := h.count_eq v
  rw [List.count_cons_self] at hc
  omega

theorem Balanced.letGo {spare : List String} {v : String} (h : r.Balanced (v :: spare)) :
    (r.letGo v).1.Balanced spare := by
  constructor
  · intro unit
    have hc := h.count_eq unit
    rw [List.count_cons] at hc
    rw [count_letGo, holders_letGo]
    by_cases hv : unit = v
    · subst hv
      simp only [beq_self_eq_true, if_true] at hc ⊢
      omega
    · have hv' : v ≠ unit := Ne.symm hv
      simpa [hv, hv'] using hc
  · exact stored_letGo h.stored_ne_zero v

end Registry

end UnitControl
