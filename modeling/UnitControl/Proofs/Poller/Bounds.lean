import UnitControl.Proofs.Channel.Bounds
import UnitControl.Proofs.Poller.Lanes

/-!
# A poller sends one message at a time

A poller lists again only when its last send is over. So neither of its lanes has more than one
message too many.
-/

namespace UnitControl.Poller

variable {p p' : Poller} {event : Event} {events : List Event}

/-- A poller waits where there is a message too many. -/
def Bounded (p : Poller) : Prop := p.feed.Bounded fun lane => p.stage = .blocked lane

namespace Bounded

theorem start (interval : Duration) (capacity : Nat) (isChanged : UnitStatus → UnitStatus → Bool)
    (scope : Scope) : (start interval capacity isChanged scope).Bounded :=
  Feed.bounded_ofCapacities _ _

theorem setStage (h : p.Bounded) (hf : p'.feed = p.feed)
    (hs : ∀ lane, p.stage = .blocked lane → p.feed.parked lane = false) : p'.Bounded := by
  rw [Bounded, hf]
  refine h.mono fun lane _ hp hb => ?_
  rw [hs lane hb] at hp
  cases hp

theorem step (h : p.Bounded) (hs : p.step event = some p') : p'.Bounded := by
  obtain ⟨clock, parcel, hstage, -, hf, hs'⟩ | ⟨clock, rows, -, hstage, hf, -⟩ |
    ⟨clock, lane, -, hstage, hp, hf, -⟩ | ⟨clock, -, hstage, hf, -⟩ | ⟨lane, -, hf, hs'⟩ |
    ⟨lane, -, hf, hs'⟩ := turn_cases hs
  · have hfree : ∀ lane, p.stage ≠ .blocked lane := by
      obtain hstage | ⟨rows, hstage⟩ := hstage <;> simp [hstage]
    rw [Bounded, hs', hf]
    exact h.send hfree parcel fun hp => if_pos hp
  · exact h.setStage hf (by simp [hstage])
  · refine h.setStage hf fun l hl => ?_
    cases hstage.symm.trans hl
    exact hp
  · refine h.setStage hf ?_
    obtain hstage | ⟨wake, hstage, -⟩ := hstage <;> simp [hstage]
  · rw [Bounded, hs']
    exact Feed.Bounded.take h hf
  · rw [Bounded, hs', hf]
    exact Feed.Bounded.hangUp h lane

theorem run (h : p.Bounded) (hr : p.run events = some p') : p'.Bounded :=
  run_keeps step h hr

end Bounded

end UnitControl.Poller
