import UnitControl.Proofs.Channel

/-!
# What lasts on a feed

A feed that is closed is never opened again, and a send is parked on a lane only as long as there is
too much on it for somebody who listens.
-/

namespace UnitControl.Feed

variable {α : Type} {f f' : Feed α}

/-- What a feed keeps whatever happens to it. -/
structure Lasting (P : Feed α → Prop) : Prop where
  close : ∀ f, P f → P f.close
  send : ∀ f parcel, P f → f.accepts parcel.lane = true → P (f.send parcel)
  take : ∀ f lane f', P f → f.take? lane = some f' → P f'
  hangUp : ∀ f lane, P f → P (f.hangUp lane)

/-- Neither channel takes anything any more. -/
def IsClosed (f : Feed α) : Prop := f.values.closed = true ∧ f.faults.closed = true

theorem isClosed_close (f : Feed α) : f.close.IsClosed := ⟨rfl, rfl⟩

theorem IsClosed.accepts (h : f.IsClosed) (lane : Lane) : f.accepts lane = false := by
  cases lane
  · simp [Feed.accepts, Channel.accepts, h.1]
  · simp [Feed.accepts, Channel.accepts, h.2]

theorem lasting_isClosed : Lasting (IsClosed (α := α)) where
  close f _ := f.isClosed_close
  send f parcel h ha := by
    rw [h.accepts] at ha
    cases ha
  take f lane f' h ht := by
    obtain ⟨-, a, rest, -, rfl⟩ | ⟨-, err, rest, -, rfl⟩ := take_cases ht <;> exact h
  hangUp f lane h := by cases lane <;> exact h

def capacity (f : Feed α) : Lane → Nat
  | .values => f.values.capacity
  | .faults => f.faults.capacity

/-- A lane has more on it than there is room for, and somebody listens. -/
def IsOverfull (f : Feed α) (lane : Lane) : Prop :=
  f.listening lane = true ∧ f.capacity lane < (f.queued lane).length

/-- A send that is parked has its reason. -/
def ParksRightly (f : Feed α) (lane : Lane) : Prop := f.parked lane = true → f.IsOverfull lane

theorem parksRightly_send {parcel : Parcel α} (h : f.accepts parcel.lane = true) :
    (f.send parcel).ParksRightly parcel.lane := by
  intro hp
  refine ⟨?_, ?_⟩
  · rw [← listening_of_accepts h]
    exact congrFun (congrArg Box.listening (box_send h)) parcel.lane
  · cases parcel with
    | value a =>
      have ha : f.values.accepts = true := h
      simpa [send, Channel.send, ha, Parcel.lane, parked, capacity, queued] using hp
    | fault err =>
      have ha : f.faults.accepts = true := h
      simpa [send, Channel.send, ha, Parcel.lane, parked, capacity, queued] using hp

theorem parked_hangUp (f : Feed α) (lane : Lane) : (f.hangUp lane).parked lane = false := by
  cases lane <;> rfl

theorem parked_take {lane : Lane} (h : f.take? lane = some f') : f'.parked lane = false := by
  obtain ⟨rfl, a, rest, -, rfl⟩ | ⟨rfl, err, rest, -, rfl⟩ := take_cases h <;> rfl

theorem parked_hangUp_of_ne {lane l : Lane} (h : l ≠ lane) :
    (f.hangUp lane).parked l = f.parked l := by
  cases lane <;> cases l <;> first | exact absurd rfl h | rfl

theorem parked_take_of_ne {lane l : Lane} (ht : f.take? lane = some f') (h : l ≠ lane) :
    f'.parked l = f.parked l := by
  obtain ⟨rfl, a, rest, -, rfl⟩ | ⟨rfl, err, rest, -, rfl⟩ := take_cases ht <;>
    cases l <;> first | exact absurd rfl h | rfl

theorem parked_close (f : Feed α) (lane : Lane) : f.close.parked lane = f.parked lane := by
  cases lane <;> rfl

theorem take_of_isOverfull {lane : Lane} (h : f.IsOverfull lane) :
    ∃ f', f.take? lane = some f' := by
  have hlen := h.2
  cases lane with
  | values =>
    cases hq : f.values.queue with
    | nil => simp [queued, hq] at hlen
    | cons a rest => simp [take?, Channel.take?, hq]
  | faults =>
    cases hq : f.faults.queue with
    | nil => simp [queued, hq] at hlen
    | cons a rest => simp [take?, Channel.take?, hq]

theorem lasting_parksRightly (lane : Lane) : Lasting (fun f : Feed α => f.ParksRightly lane) where
  close f h := by cases lane <;> exact h
  send f parcel h ha := by
    by_cases hl : lane = parcel.lane
    · exact hl ▸ parksRightly_send ha
    · cases parcel <;> cases lane <;> first | exact absurd rfl hl | exact h
  take f l f' h ht := by
    by_cases hl : lane = l
    · intro hp
      rw [hl, parked_take ht] at hp
      cases hp
    · obtain ⟨rfl, a, rest, -, rfl⟩ | ⟨rfl, err, rest, -, rfl⟩ := take_cases ht <;>
        cases lane <;> first | exact absurd rfl hl | exact h
  hangUp f l h := by
    by_cases hl : lane = l
    · intro hp
      rw [hl, parked_hangUp] at hp
      cases hp
    · cases l <;> cases lane <;> first | exact absurd rfl hl | exact h

end UnitControl.Feed
