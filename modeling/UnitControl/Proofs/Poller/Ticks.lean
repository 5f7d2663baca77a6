import UnitControl.Proofs.Poller.Lifetime

/-!
# When a poller lists

A listing starts when the poller has looked for listeners, and the poller keeps the time of that
until it looks again. Its next listing is to start one interval later.
-/

namespace UnitControl.Poller

/-- The clock by which a poller looks for listeners. -/
def Event.wake? : Event → Option Clock
  | .wake clock => some clock
  | _ => none

/-- The clocks by which a poller has looked for listeners. -/
def ticks (events : List Event) : List Clock := events.filterMap Event.wake?

/-- When a poller is to look again that goes to sleep by this clock. -/
def nextTick (interval : Duration) (tick clock : Clock) : Nat :=
  clock.due ⟨interval.nanos - (clock.shown - tick.shown)⟩

variable {p p' : Poller} {event : Event} {events : List Event} {looks : List Clock}

theorem asleep_of_started {tick : Clock} (h : p.started = tick.shown) (clock : Clock) :
    p.asleep clock = .sleeping (nextTick p.interval tick clock) := by
  rw [asleep, left, h, nextTick]

example : nextTick ⟨10⟩ (.start .exact) ⟨.exact, 3, 3⟩ = 10 := rfl

theorem started_step (h : p.step event = some p') (hl : p'.stage ≠ .ended) :
    p.stage ≠ .ended ∧ p'.started = (event.wake?.map Clock.shown).getD p.started := by
  cases event with
  | wake clock =>
    obtain ⟨hdue, h⟩ := Option.ite_none_right_eq_some.1 h
    cases h
    refine ⟨?_, ?_⟩
    · obtain hs | ⟨wake, hs, -⟩ := (p.isDue_iff clock).1 hdue <;> simp [hs]
    · unfold look at hl ⊢
      split
      · rename_i hd
        simp [hd] at hl
      · rfl
  | unblock clock =>
    simp only [step] at h
    split at h
    · rename_i hs
      obtain ⟨-, h⟩ := Option.ite_none_left_eq_some.1 h
      cases h
      exact ⟨by simp [hs], rfl⟩
    · cases h
  | listed clock result =>
    simp only [step] at h
    split at h <;> cases h <;> exact ⟨by simp [*], rfl⟩
  | «scoped» clock members =>
    simp only [step] at h
    split at h <;> cases h
    exact ⟨by simp [*], rfl⟩
  | take lane =>
    obtain ⟨feed, -, rfl⟩ := Option.map_eq_some_iff.1 h
    exact ⟨hl, rfl⟩
  | hangUp lane =>
    cases h
    exact ⟨hl, rfl⟩

theorem starting_step (h : p.step event = some p') (hs : p.stage = .starting)
    (hw : event.wake? = none) : p'.stage = .starting := by
  obtain ⟨clock, parcel, hs' | ⟨rows, hs'⟩, -⟩ | ⟨clock, rows, -, hs', -⟩ |
    ⟨clock, l, -, hs', -⟩ | ⟨clock, rfl, -⟩ | ⟨l, -, -, hs'⟩ | ⟨l, -, -, hs'⟩ := turn_cases h
  · cases hs.symm.trans hs'
  · cases hs.symm.trans hs'
  · cases hs.symm.trans hs'
  · cases hs.symm.trans hs'
  · cases hw
  · exact hs'.trans hs
  · exact hs'.trans hs

/-- A poller that has not ended has kept the time of the last of these looks. -/
structure Timed (p : Poller) (looks : List Clock) : Prop where
  first : looks = [] → p.stage = .starting
  last : p.stage ≠ .ended → ∀ clock, looks.getLast? = some clock → p.started = clock.shown

namespace Timed

theorem start (interval : Duration) (capacity : Nat) (isChanged : UnitStatus → UnitStatus → Bool)
    (scope : Scope) : (start interval capacity isChanged scope).Timed [] where
  first _ := rfl
  last _ _ h := by cases h

theorem step (h : p.Timed looks) (hs : p.step event = some p') :
    p'.Timed (looks ++ event.wake?.toList) where
  first hnil := by
    obtain ⟨hlooks, hwake⟩ := List.append_eq_nil_iff.1 hnil
    exact starting_step hs (h.first hlooks) (Option.toList_eq_nil_iff.1 hwake)
  last hl clock hlast := by
    obtain ⟨hl₀, hstarted⟩ := started_step hs hl
    rw [hstarted]
    cases hw : event.wake? with
    | none =>
      rw [hw, Option.toList_none, List.append_nil] at hlast
      exact h.last hl₀ clock hlast
    | some look =>
      rw [hw, Option.toList_some, List.getLast?_concat] at hlast
      cases hlast
      rfl

theorem run (h : p.Timed looks) (hr : p.run events = some p') :
    p'.Timed (looks ++ ticks events) :=
  run_collects (P := Timed) (fun _ _ _ _ _ hx hs => hx.step hs) h hr

/-- A poller that lists or waits has looked before. -/
theorem exists_look (h : p.Timed looks) (hs : p.stage ≠ .starting) (hl : p.stage ≠ .ended) :
    ∃ tick, looks.getLast? = some tick ∧
      ∀ clock, p.asleep clock = .sleeping (nextTick p.interval tick clock) := by
  obtain ⟨tick, hlast⟩ : ∃ tick, looks.getLast? = some tick :=
    Option.isSome_iff_exists.1 (List.getLast?_isSome.2 fun hnil => hs (h.first hnil))
  exact ⟨tick, hlast, asleep_of_started (h.last hl tick hlast)⟩

end Timed

end UnitControl.Poller
