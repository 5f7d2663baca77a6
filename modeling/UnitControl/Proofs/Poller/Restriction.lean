import UnitControl.Proofs.Listing.Restriction
import UnitControl.Proofs.Poller.Lanes

/-!
# Pollers that look at a part of the listings

A scope leaves out rows before a poller makes a snapshot of a listing, and so before it compares it
with the one before. As long as the scope lets the same names through, its poller and one that looks
at all units get the same messages about these names, and the same errors.
-/

namespace UnitControl

namespace Poller

def Event.outcome? : Event → Option (Except Error (List UnitStatus))
  | .listed _ result => some result
  | _ => none

def outcomes (events : List Event) : List (Except Error (List UnitStatus)) :=
  events.filterMap Event.outcome?

theorem listings_eq (events : List Event) :
    listings events = (outcomes events).filterMap Except.toOption := by
  rw [listings, outcomes, List.filterMap_filterMap]
  congr 1
  funext event
  cases event with
  | listed clock result => cases result <;> rfl
  | _ => rfl

theorem failures_eq (events : List Event) :
    failures events = (outcomes events).filterMap fun
      | .error err => some err
      | .ok _ => none := by
  rw [failures, outcomes, List.filterMap_filterMap]
  congr 1
  funext event
  cases event with
  | listed clock result => cases result <;> rfl
  | _ => rfl

end Poller

namespace Scope

/-- The scope lets these names through, each time that it is applied. -/
def Keeps (scope : Scope) (keep : String → Bool) (memberships : List (List String)) : Prop :=
  match scope with
  | all => ∀ k, keep k = true
  | named f => f = keep
  | membersOf _ => ∀ members ∈ memberships, ∀ k, k ∈ members ↔ keep k = true

variable {scope : Scope} {keep : String → Bool} {listings : List (List UnitStatus)}
  {memberships : List (List String)}

theorem views_all (listings : List (List UnitStatus)) (memberships : List (List String)) :
    all.views listings memberships = listings :=
  List.map_id listings

theorem Keeps.views (h : scope.Keeps keep memberships) {n : Nat} {view rows : List UnitStatus}
    (hview : (scope.views listings memberships)[n]? = some view)
    (hrows : listings[n]? = some rows) :
    view = rows.filter fun s => keep s.name := by
  cases scope with
  | all =>
    rw [views_all, hrows] at hview
    cases hview
    exact (List.filter_eq_self.2 fun s _ => h s.name).symm
  | named f =>
    have hview : (listings.map fun rows => rows.filter fun s => f s.name)[n]? = some view := hview
    rw [List.getElem?_map, hrows] at hview
    cases hview
    cases h
    rfl
  | membersOf s =>
    simp only [Scope.views] at hview
    rw [List.getElem?_zipWith_eq_some] at hview
    obtain ⟨rows', members, hrows', hmembers, rfl⟩ := hview
    cases Option.some.inj (hrows.symm.trans hrows')
    refine List.filter_congr fun s _ => ?_
    have hm := h members (List.mem_of_getElem? hmembers) s.name
    rw [Bool.eq_iff_iff, decide_eq_true_iff, hm]

/-- Message by message, the changes of the views restrict those of the listings. -/
theorem Keeps.restrictEach (h : scope.Keeps keep memberships)
    (isChanged : UnitStatus → UnitStatus → Bool) :
    Table.RestrictEach keep
      (Snapshot.diffs isChanged ((scope.views listings memberships).map .ofRows))
      (Snapshot.diffs isChanged (listings.map .ofRows)) := by
  refine Snapshot.restrictEach_diffs fun n part whole hpart hwhole => ?_
  rw [List.getElem?_map, Option.map_eq_some_iff] at hpart hwhole
  obtain ⟨view, hview, rfl⟩ := hpart
  obtain ⟨rows, hrows, rfl⟩ := hwhole
  rw [h.views hview hrows]
  exact Snapshot.restricts_ofRows keep rows

end Scope

end UnitControl
