import UnitControl.Proofs.Poller.Lanes

/-!
# How long a poller lasts

A poller ends only when both lanes are dropped, and finds that out before it would list again. It
waits for room only where somebody listens: with the consumer of a lane goes the wait for it.
-/

namespace UnitControl.Poller

variable {p p' : Poller} {event : Event} {events : List Event} {lane : Lane}

/-- A poller has ended only if nobody listens, and a send is parked only for somebody who does. -/
structure Attentive (p : Poller) : Prop where
  ended : p.stage = .ended → p.feed.deserted = true
  parks : ∀ lane, p.feed.ParksRightly lane

/-- A poller has sent what it had to send, and waits for room only where somebody listens. -/
def HasSent (p : Poller) : Prop :=
  (∃ wake, p.stage = .sleeping wake) ∨
    ∃ lane, p.stage = .blocked lane ∧ p.feed.listening lane = true

namespace Attentive

theorem start (interval : Duration) (capacity : Nat) (isChanged : UnitStatus → UnitStatus → Bool)
    (scope : Scope) : (start interval capacity isChanged scope).Attentive where
  ended h := by cases h
  parks lane h := by cases lane <;> cases h

theorem step (h : p.Attentive) (hs : p.step event = some p') : p'.Attentive where
  parks lane := enduring_step (Feed.lasting_parksRightly lane).enduring hs (h.parks lane)
  ended hended := by
    obtain ⟨clock, parcel, -, -, -, hs'⟩ | ⟨clock, rows, -, -, -, hs'⟩ |
      ⟨clock, l, -, -, -, -, hs'⟩ | ⟨clock, -, -, hf, hs'⟩ | ⟨l, -, -, hs'⟩ |
      ⟨l, -, -, hs'⟩ := turn_cases hs
    · rw [hs'] at hended
      split at hended <;> cases hended
    · rw [hs'] at hended
      cases hended
    · rw [hs'] at hended
      cases hended
    · rw [hs'] at hended
      split at hended
      · rwa [hf]
      · cases hended
    · exact enduring_step Feed.enduring_deserted hs (h.ended (hs' ▸ hended))
    · exact enduring_step Feed.enduring_deserted hs (h.ended (hs' ▸ hended))

theorem run (h : p.Attentive) (hr : p.run events = some p') : p'.Attentive :=
  run_keeps step h hr

variable (h : p.Attentive)
include h

theorem not_parked (hl : p.feed.listening lane = false) : p.feed.parked lane = false := by
  refine Bool.not_eq_true _ ▸ fun hp => ?_
  rw [(h.parks lane hp).1] at hl
  cases hl

/-- A poller does not wait on a lane that is dropped. -/
theorem step_unblock (hs : p.stage = .blocked lane) (hl : p.feed.listening lane = false)
    (clock : Clock) : p.step (.unblock clock) =
      some { p with stage := p.asleep clock } := by
  simp only [Poller.step, hs, h.not_parked hl, Bool.false_eq_true, if_false]

theorem hasSent_of_stage {lane : Lane} {wake : Nat}
    (hs : p.stage = if p.feed.parked lane then .blocked lane else .sleeping wake) : p.HasSent := by
  split at hs
  · rename_i hp
    exact .inr ⟨_, hs, (h.parks _ hp).1⟩
  · exact .inl ⟨_, hs⟩

/-- With its listing a poller has something to send, or first asks for the members of its set. -/
theorem step_listed (hs : p.stage = .listing) (clock : Clock)
    (result : Except Error (List UnitStatus)) :
    ∃ p', p.step (.listed clock result) = some p' ∧ (p'.isScoping = true ∨ p'.HasSent) := by
  obtain ⟨p', hstep⟩ : ∃ p', p.step (.listed clock result) = some p' := by
    cases result with
    | error err => exact ⟨p.send clock (.fault err), by simp only [Poller.step, hs]⟩
    | ok rows => cases hscope : p.scope <;> simp [Poller.step, hs, hscope]
  refine ⟨p', hstep, ?_⟩
  obtain ⟨clock', parcel, -, -, -, hs'⟩ | ⟨clock', rows, -, -, -, hs'⟩ | ⟨clock', l, he, -⟩ |
    ⟨clock', he, -⟩ | ⟨l, he, -⟩ | ⟨l, he, -⟩ := turn_cases hstep
  · exact .inr ((h.step hstep).hasSent_of_stage hs')
  · exact .inl (by simp only [isScoping, hs'])
  all_goals cases he

theorem hasSent_of_scoped {clock : Clock} {members : List String}
    (hs : p.step (.scoped clock members) = some p') : p'.HasSent := by
  obtain ⟨clock', parcel, -, -, -, hs'⟩ | ⟨clock', rows, he, -⟩ | ⟨clock', l, he, -⟩ |
    ⟨clock', he, -⟩ | ⟨l, he, -⟩ | ⟨l, he, -⟩ := turn_cases hs
  · exact (h.step hs).hasSent_of_stage hs'
  all_goals cases he

end Attentive

theorem step_wake {clock : Clock} (hdue : p.isDue clock = true) :
    ∃ p', p.step (.wake clock) = some p' ∧
      p'.stage = if p.feed.deserted then .ended else .listing := by
  obtain ⟨started, hlook⟩ := p.look_eq clock
  exact ⟨p.look clock, by simp only [Poller.step, hdue, if_true], by rw [hlook]⟩

end UnitControl.Poller
