import Mathlib.Logic.Function.Basic
import UnitControl.Channel

/-!
# What is queued on a feed

What consumers get to see of a feed are the parcels that are queued on each lane, as long as they
listen there. Closing a feed takes neither from them.
-/

namespace UnitControl

/-- A feed as its consumers know it. -/
structure Box (α : Type) where
  queued : Lane → List (Parcel α)
  listening : Lane → Bool

namespace Box

variable {α : Type}

def new : Box α := ⟨fun _ => [], fun _ => true⟩

variable (b : Box α)

def setQueue (lane : Lane) (parcels : List (Parcel α)) : Box α :=
  { b with queued := Function.update b.queued lane parcels }

def add (parcel : Parcel α) : Box α := b.setQueue parcel.lane (b.queued parcel.lane ++ [parcel])

def hangUp (lane : Lane) : Box α :=
  { b.setQueue lane [] with listening := Function.update b.listening lane false }

theorem queued_setQueue (lane : Lane) (parcels : List (Parcel α)) (l : Lane) :
    (b.setQueue lane parcels).queued l = if l = lane then parcels else b.queued l :=
  Function.update_apply ..

theorem queued_hangUp (lane l : Lane) :
    (b.hangUp lane).queued l = if l = lane then [] else b.queued l :=
  Function.update_apply ..

theorem listening_hangUp (lane l : Lane) :
    (b.hangUp lane).listening l = if l = lane then false else b.listening l :=
  Function.update_apply ..

end Box

namespace Feed

variable {α : Type} {f f' : Feed α} {lane : Lane}

def queued (f : Feed α) : Lane → List (Parcel α)
  | .values => f.values.queue.map .value
  | .faults => f.faults.queue.map .fault

def box (f : Feed α) : Box α := ⟨f.queued, f.listening⟩

theorem box_ext {b : Box α} (hq : ∀ lane, f.queued lane = b.queued lane)
    (hl : ∀ lane, f.listening lane = b.listening lane) : f.box = b := by
  obtain ⟨_, _⟩ := b
  simp only [box, Box.mk.injEq]
  exact ⟨funext hq, funext hl⟩

theorem box_ofCapacities (values faults : Nat) : (ofCapacities values faults : Feed α).box = .new :=
  box_ext (fun lane => by cases lane <;> rfl) fun lane => by cases lane <;> rfl

theorem box_close (f : Feed α) : f.close.box = f.box :=
  box_ext (fun lane => by cases lane <;> rfl) fun lane => by cases lane <;> rfl

theorem listening_of_accepts (h : f.accepts lane = true) : f.listening lane = true := by
  cases lane <;> exact (Bool.and_eq_true_iff.1 h).2

theorem box_send {parcel : Parcel α} (h : f.accepts parcel.lane = true) :
    (f.send parcel).box = f.box.add parcel := by
  cases parcel with
  | value a =>
    have h : f.values.accepts = true := h
    refine box_ext (fun lane => ?_) fun lane => ?_
    · cases lane <;>
        simp [Box.add, Box.setQueue, send, queued, Parcel.lane, box, Channel.queue_send, h]
    · cases lane <;> simp [Box.add, Box.setQueue, send, listening, box, Channel.send, h]
  | fault err =>
    have h : f.faults.accepts = true := h
    refine box_ext (fun lane => ?_) fun lane => ?_
    · cases lane <;>
        simp [Box.add, Box.setQueue, send, queued, Parcel.lane, box, Channel.queue_send, h]
    · cases lane <;> simp [Box.add, Box.setQueue, send, listening, box, Channel.send, h]

theorem box_hangUp (f : Feed α) (lane : Lane) : (f.hangUp lane).box = f.box.hangUp lane := by
  refine box_ext (fun l => ?_) fun l => ?_ <;>
    cases lane <;> cases l <;>
      simp [hangUp, Box.hangUp, Box.setQueue, queued, listening, box, Channel.hangUp]

theorem take_cases (h : f.take? lane = some f') :
    (lane = .values ∧ ∃ a rest, f.values.queue = a :: rest ∧
      f' = { f with values := { f.values with queue := rest, parked := false } }) ∨
    lane = .faults ∧ ∃ err rest, f.faults.queue = err :: rest ∧
      f' = { f with faults := { f.faults with queue := rest, parked := false } } := by
  have hc {β : Type} {c : Channel β} {r : β × Channel β} (hr : c.take? = some r) :
      ∃ rest, c.queue = r.1 :: rest ∧ r.2 = { c with queue := rest, parked := false } := by
    unfold Channel.take? at hr
    split at hr
    · cases hr
    · rename_i a rest hq
      cases hr
      exact ⟨rest, hq, rfl⟩
  cases lane with
  | values =>
    obtain ⟨⟨a, c⟩, hr, rfl⟩ := Option.map_eq_some_iff.1 h
    obtain ⟨rest, hq, rfl⟩ := hc hr
    exact .inl ⟨rfl, a, rest, hq, rfl⟩
  | faults =>
    obtain ⟨⟨err, c⟩, hr, rfl⟩ := Option.map_eq_some_iff.1 h
    obtain ⟨rest, hq, rfl⟩ := hc hr
    exact .inr ⟨rfl, err, rest, hq, rfl⟩

theorem box_take (h : f.take? lane = some f') :
    ∃ parcel rest, f.queued lane = parcel :: rest ∧ f'.box = f.box.setQueue lane rest := by
  obtain ⟨rfl, a, rest, hq, rfl⟩ | ⟨rfl, err, rest, hq, rfl⟩ := take_cases h
  · refine ⟨.value a, rest.map .value, by simp [queued, hq], box_ext (fun l => ?_) fun l => ?_⟩
    · cases l <;> simp [Box.setQueue, queued, box]
    · cases l <;> rfl
  · refine ⟨.fault err, rest.map .fault, by simp [queued, hq], box_ext (fun l => ?_) fun l => ?_⟩
    · cases l <;> simp [Box.setQueue, queued, box]
    · cases l <;> rfl

end Feed

end UnitControl
