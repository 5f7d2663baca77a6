import UnitControl.Proofs.Feed

/-!
# How much is queued

A send enqueues its message even if there is no room for it. So a channel alone bounds nothing: what
bounds it is a sender that waits, as long as its send is parked, before it sends again.
-/

namespace UnitControl

namespace Channel

variable {α : Type} {c c' : Channel α} {waits waits' : Prop}

/-- There is one message too many at most, and none as long as the channel takes more, unless the
send of that message is parked and its sender waits. -/
structure Bounded (c : Channel α) (waits : Prop) : Prop where
  length_le : c.queue.length ≤ c.capacity + 1
  parked : c.accepts = true → c.capacity < c.queue.length → c.parked = true ∧ waits

theorem bounded_of_le (h : c.queue.length ≤ c.capacity) : c.Bounded waits :=
  ⟨Nat.le_succ_of_le h, fun _ hlt => absurd hlt (Nat.not_lt.2 h)⟩

theorem bounded_of_not_accepts (h : c.queue.length ≤ c.capacity + 1) (ha : c.accepts = false) :
    c.Bounded waits := by
  refine ⟨h, fun ha' _ => ?_⟩
  rw [ha] at ha'
  cases ha'

namespace Bounded

theorem mono (h : c.Bounded waits)
    (hw : c.accepts = true → c.parked = true → waits → waits') : c.Bounded waits' := by
  refine ⟨h.length_le, fun ha hlt => ?_⟩
  obtain ⟨hp, hwaits⟩ := h.parked ha hlt
  exact ⟨hp, hw ha hp hwaits⟩

theorem close (h : c.Bounded waits) : c.close.Bounded waits' :=
  bounded_of_not_accepts h.length_le c.accepts_close

theorem take (h : c.Bounded waits) {a : α} (ht : c.take? = some (a, c')) : c'.Bounded waits' := by
  unfold take? at ht
  split at ht
  · cases ht
  · rename_i rest hq
    cases ht
    have hlen := h.length_le
    rw [hq, List.length_cons] at hlen
    exact bounded_of_le (Nat.le_of_succ_le_succ hlen)

theorem hangUp (c : Channel α) : c.hangUp.Bounded waits := bounded_of_le (Nat.zero_le _)

theorem send (h : c.Bounded False) (a : α) : (c.send a).Bounded ((c.send a).parked = true) := by
  cases ha : c.accepts with
  | false =>
    simp only [Channel.send, ha, Bool.false_eq_true, if_false]
    exact bounded_of_not_accepts h.length_le ha
  | true =>
    have hroom : c.queue.length ≤ c.capacity :=
      Nat.le_of_not_lt fun hlt => (h.parked ha hlt).2.elim
    simp only [Channel.send, ha, if_true]
    refine ⟨?_, fun _ hlt => ?_⟩
    · simpa using hroom
    · have hlt : c.capacity < c.queue.length + 1 := by simpa using hlt
      simp [hlt]

end Bounded

end Channel

namespace Feed

variable {α : Type} {f f' : Feed α} {waits waits' : Lane → Prop}

/-- Both channels are bounded, and this tells on which of them the sender waits. -/
structure Bounded (f : Feed α) (waits : Lane → Prop) : Prop where
  values : f.values.Bounded (waits .values)
  faults : f.faults.Bounded (waits .faults)

theorem bounded_ofCapacities (values faults : Nat) :
    (ofCapacities values faults : Feed α).Bounded waits :=
  ⟨Channel.bounded_of_le (Nat.zero_le _), Channel.bounded_of_le (Nat.zero_le _)⟩

theorem capacity_send (f : Feed α) (parcel : Parcel α) (lane : Lane) :
    (f.send parcel).capacity lane = f.capacity lane := by
  cases parcel <;> cases lane <;> first | rfl | exact Channel.capacity_send _ _

theorem lasting_capacity (capacity : Lane → Nat) :
    Lasting (fun f : Feed α => ∀ lane, f.capacity lane = capacity lane) where
  close f h lane := (by cases lane <;> rfl : f.close.capacity lane = _).trans (h lane)
  send f parcel h _ lane := (f.capacity_send parcel lane).trans (h lane)
  take f l f' h ht lane := by
    obtain ⟨-, a, rest, -, rfl⟩ | ⟨-, err, rest, -, rfl⟩ := take_cases ht <;>
      cases lane <;> first | exact h .values | exact h .faults
  hangUp f l h lane := by
    cases l <;> cases lane <;> first | exact h .values | exact h .faults

namespace Bounded

theorem mono (h : f.Bounded waits)
    (hw : ∀ lane, f.accepts lane = true → f.parked lane = true → waits lane → waits' lane) :
    f.Bounded waits' :=
  ⟨h.values.mono (hw .values), h.faults.mono (hw .faults)⟩

theorem elsewhere (h : f.Bounded waits) (hw : ∀ lane, ¬waits lane) : f.Bounded waits' :=
  h.mono fun lane _ _ hlane => absurd hlane (hw lane)

theorem close (h : f.Bounded waits) : f.close.Bounded waits' := ⟨h.values.close, h.faults.close⟩

theorem take (h : f.Bounded waits) {lane : Lane} (ht : f.take? lane = some f') :
    f'.Bounded waits := by
  cases lane with
  | values =>
    obtain ⟨r, hr, rfl⟩ := Option.map_eq_some_iff.1 ht
    exact ⟨h.values.take hr, h.faults⟩
  | faults =>
    obtain ⟨r, hr, rfl⟩ := Option.map_eq_some_iff.1 ht
    exact ⟨h.values, h.faults.take hr⟩

theorem hangUp (h : f.Bounded waits) (lane : Lane) : (f.hangUp lane).Bounded waits := by
  cases lane with
  | values => exact ⟨.hangUp _, h.faults⟩
  | faults => exact ⟨h.values, .hangUp _⟩

theorem send (h : f.Bounded waits) (hw : ∀ lane, ¬waits lane) (parcel : Parcel α)
    (hp : (f.send parcel).parked parcel.lane = true → waits' parcel.lane) :
    (f.send parcel).Bounded waits' := by
  have h : f.Bounded fun _ => False := h.elsewhere hw
  cases parcel with
  | value a => exact ⟨(h.values.send a).mono fun _ _ => hp, h.faults.mono fun _ _ => False.elim⟩
  | fault err => exact ⟨h.values.mono fun _ _ => False.elim, (h.faults.send err).mono fun _ _ => hp⟩

theorem length_queued_le (h : f.Bounded waits) (lane : Lane) :
    (f.queued lane).length ≤ f.capacity lane + 1 := by
  cases lane with
  | values => simpa [queued, capacity] using h.values.length_le
  | faults => simpa [queued, capacity] using h.faults.length_le

theorem waits_of_lt (h : f.Bounded waits) {lane : Lane} (ha : f.accepts lane = true)
    (hlt : f.capacity lane < (f.queued lane).length) : waits lane := by
  cases lane with
  | values => exact (h.values.parked ha (by simpa [queued, capacity] using hlt)).2
  | faults => exact (h.faults.parked ha (by simpa [queued, capacity] using hlt)).2

end Bounded

end Feed

end UnitControl
