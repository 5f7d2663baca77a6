import UnitControl.Proofs.Feed
import UnitControl.Proofs.Poller.Replay

/-!
# Errors that nobody takes

A failed listing sends its error as a successful one sends its changes, and the poller waits until
there was room. So a consumer who listens for errors but takes none lets it list until one listing
more has failed than there is room for.
-/

namespace UnitControl

namespace Poller

namespace Event

def failure? : Event → Option Error
  | .listed _ (.error err) => some err
  | _ => none

/-- Nobody takes an error or stops listening for them. -/
def SparesFaults (event : Event) : Prop := event ≠ .take .faults ∧ event ≠ .hangUp .faults

end Event

def failures (events : List Event) : List Error := events.filterMap Event.failure?

/-- These are the errors so far, of which none was taken. -/
structure Unattended (capacity : Nat) (p : Poller) (errors : List Error) : Prop where
  queue : p.feed.faults.queue = errors
  accepts : p.feed.faults.accepts = true
  capacity_eq : p.feed.faults.capacity = capacity
  parked : p.feed.faults.parked = decide (capacity < errors.length)
  blocked : p.stage = .blocked .faults ↔ capacity < errors.length
  bound : errors.length ≤ capacity + 1

variable {p p' : Poller} {capacity : Nat} {errors : List Error} {events : List Event}

theorem failures_cons (event : Event) (rest : List Event) :
    failures (event :: rest) = event.failure?.toList ++ failures rest :=
  filterMap_cons_eq_append _ _ _

theorem unattended_start (interval : Duration) (capacity : Nat)
    (isChanged : UnitStatus → UnitStatus → Bool) (scope : Scope) :
    (start interval capacity isChanged scope).Unattended capacity [] where
  queue := rfl
  accepts := rfl
  capacity_eq := rfl
  parked := rfl
  blocked := by simp [start]
  bound := Nat.zero_le _

theorem interval_step {event : Event} (hs : p.step event = some p') :
    p'.interval = p.interval := by
  obtain ⟨clock, err, -, -, rfl⟩ | ⟨clock, rows, s, -, -, -, rfl⟩ | ⟨clock, rows, -, -, -, rfl⟩ |
    ⟨clock, members, rows, -, -, rfl⟩ | ⟨lane, feed, -, -, rfl⟩ | ⟨lane, -, rfl⟩ |
    ⟨clock, started, stage, -, -, -, rfl⟩ := step_cases hs <;> rfl

theorem interval_run (hr : p.run events = some p') : p'.interval = p.interval :=
  run_keeps (P := fun x => x.interval = p.interval)
    (fun he hs => (interval_step hs).trans he) rfl hr

theorem stage_send_value (p : Poller) (clock : Clock) (changes : Changes) :
    (p.send clock (.value changes)).stage ≠ .blocked .faults := by
  dsimp only [send]
  split <;> simp [Parcel.lane, asleep]

theorem failure_cases {event : Event} {err : Error} (h : event.failure? = some err) :
    ∃ clock, event = .listed clock (.error err) := by
  cases event with
  | listed clock result =>
    cases result with
    | error err' =>
      cases h
      exact ⟨clock, rfl⟩
    | ok rows => cases h
  | _ => cases h

theorem step_failed {clock : Clock} {err : Error}
    (h : p.step (.listed clock (.error err)) = some p') :
    p.stage = .listing ∧ p' = p.send clock (.fault err) := by
  simp only [step] at h
  split at h
  · rename_i err' hs he
    cases he
    exact ⟨hs, (Option.some.inj h).symm⟩
  · rename_i he _
    cases he
  · rename_i he _
    cases he
  · cases h

namespace Unattended

variable (h : p.Unattended capacity errors)
include h

theorem elsewhere (hs : p.stage ≠ .blocked .faults) (hf : p'.feed.faults = p.feed.faults)
    (hs' : p'.stage ≠ .blocked .faults) : p'.Unattended capacity errors where
  queue := hf ▸ h.queue
  accepts := hf ▸ h.accepts
  capacity_eq := hf ▸ h.capacity_eq
  parked := hf ▸ h.parked
  blocked := iff_of_false hs' fun hlt => hs (h.blocked.2 hlt)
  bound := h.bound

theorem aside {feed : Feed Changes} (hf : feed.faults = p.feed.faults) :
    { p with feed }.Unattended capacity errors where
  queue := hf ▸ h.queue
  accepts := hf ▸ h.accepts
  capacity_eq := hf ▸ h.capacity_eq
  parked := hf ▸ h.parked
  blocked := h.blocked
  bound := h.bound

theorem publish (hs : p.stage ≠ .blocked .faults) (clock : Clock) (rows : List UnitStatus) :
    (p.publish clock rows).Unattended capacity errors :=
  h.elsewhere hs rfl (stage_send_value _ _ _)

theorem fault (hs : p.stage ≠ .blocked .faults) (clock : Clock) (err : Error) :
    (p.send clock (.fault err)).Unattended capacity (errors ++ [err]) := by
  have hle : errors.length ≤ capacity := Nat.le_of_not_lt fun hlt => hs (h.blocked.2 hlt)
  have hf : (p.send clock (.fault err)).feed.faults =
      { p.feed.faults with
        queue := errors ++ [err], parked := decide (capacity < errors.length + 1) } := by
    simp only [send, Feed.send, Channel.send, h.accepts, if_true, h.queue, h.capacity_eq]
  have hp : (p.feed.send (.fault err)).parked .faults = decide (capacity < errors.length + 1) :=
    congrArg Channel.parked hf
  refine ⟨?_, ?_, ?_, ?_, ?_, ?_⟩
  · rw [hf]
  · rw [hf]
    exact h.accepts
  · rw [hf]
    exact h.capacity_eq
  · rw [hf, List.length_append, List.length_singleton]
  · rw [List.length_append, List.length_singleton]
    simp only [send, Parcel.lane, hp]
    split <;> simp_all [asleep]
  · simpa using hle

theorem keep {event : Event} (hspare : event.SparesFaults) (hn : event.failure? = none)
    (hs : p.step event = some p') : p'.Unattended capacity errors := by
  have hstage {stage : Stage} (hp : p.stage = stage) (hne : stage ≠ .blocked .faults) :
      p.stage ≠ .blocked .faults := hp ▸ hne
  cases event with
  | listed clock result =>
    simp only [Poller.step] at hs
    split at hs
    · cases hn
    · rename_i hp _
      cases hs
      exact h.elsewhere (hstage hp (by simp)) rfl (by simp)
    · rename_i hp _
      cases hs
      exact h.publish (hstage hp (by simp)) clock _
    · cases hs
  | «scoped» clock members =>
    simp only [Poller.step] at hs
    split at hs
    · rename_i hp
      cases hs
      exact h.publish (hstage hp (by simp)) clock _
    · cases hs
  | unblock clock =>
    simp only [Poller.step] at hs
    split at hs
    · rename_i lane hp
      split at hs
      · cases hs
      · rename_i hroom
        cases hs
        refine h.elsewhere (fun hb => hroom ?_) rfl (by simp [asleep])
        cases hp.symm.trans hb
        exact h.parked.trans (decide_eq_true (h.blocked.1 hb))
    · cases hs
  | wake clock =>
    simp only [Poller.step] at hs
    split at hs
    · rename_i hdue
      obtain ⟨started, hlook⟩ := p.look_eq clock
      cases hs
      rw [hlook]
      refine h.elsewhere ?_ rfl (by dsimp only; split <;> simp)
      obtain hp | ⟨wake, hp, -⟩ := (p.isDue_iff clock).1 hdue
      · exact hstage hp (by simp)
      · exact hstage hp (by simp)
    · cases hs
  | take lane =>
    obtain ⟨feed, hf, rfl⟩ := Option.map_eq_some_iff.1 hs
    obtain ⟨rfl, a, rest, -, rfl⟩ | ⟨rfl, err, rest, -, rfl⟩ := Feed.take_cases hf
    · exact h.aside rfl
    · exact absurd rfl hspare.1
  | hangUp lane =>
    cases hs
    cases lane with
    | values => exact h.aside rfl
    | faults => exact absurd rfl hspare.2

theorem step {event : Event} (hspare : event.SparesFaults) (hs : p.step event = some p') :
    p'.Unattended capacity (errors ++ event.failure?.toList) := by
  cases hf : event.failure? with
  | none =>
    rw [Option.toList_none, List.append_nil]
    exact h.keep hspare hf hs
  | some err =>
    obtain ⟨clock, rfl⟩ := failure_cases hf
    obtain ⟨hstage, rfl⟩ := step_failed hs
    exact h.fault (by simp [hstage]) clock err

theorem run (hspare : ∀ event ∈ events, event.SparesFaults) (hr : p.run events = some p') :
    p'.Unattended capacity (errors ++ failures events) :=
  run_collects (P := Unattended capacity)
    (fun event hm _ _ _ hx hs => Unattended.step hx (hspare event hm) hs) h hr

theorem fails (hs : p.stage = .listing) (clock : Clock) (err : Error) :
    ∃ p', p.step (.listed clock (.error err)) = some p' ∧ p'.stage =
      if errors.length < capacity then p.asleep clock
      else .blocked .faults := by
  refine ⟨p.send clock (.fault err), by simp only [Poller.step, hs], ?_⟩
  have hblocked := (h.fault (by simp [hs]) clock err).blocked
  rw [List.length_append, List.length_singleton] at hblocked
  split
  · rename_i hroom
    have hparked : (p.feed.send (.fault err)).faults.parked = false := by
      simp only [Feed.send, Channel.send, h.accepts, if_true, h.queue, h.capacity_eq]
      exact decide_eq_false (by omega)
    exact if_neg (by simp only [Parcel.lane, Feed.parked, hparked]; simp)
  · exact hblocked.2 (by omega)

theorem not_deserted : p.feed.deserted = false := by
  have hl : p.feed.faults.listening = true := (Bool.and_eq_true_iff.1 h.accepts).2
  simp only [Feed.deserted, hl, Bool.not_true, Bool.and_false]

theorem wakes {clock : Clock} (hdue : p.isDue clock = true) :
    p.step (.wake clock) = some { p with started := clock.shown, stage := .listing } := by
  simp only [Poller.step, look, hdue, h.not_deserted, if_true, Bool.false_eq_true, if_false]

/-- Nothing but the consumer of changes can do anything to a poller with too many errors. -/
theorem halts_step (hlt : capacity < errors.length) {event : Event} (hspare : event.SparesFaults)
    (hs : p.step event = some p') :
    (event = .take .values ∨ event = .hangUp .values) ∧ p'.previous = p.previous := by
  have hb := h.blocked.2 hlt
  cases event with
  | listed clock result => simp [Poller.step, hb] at hs
  | «scoped» clock members => simp [Poller.step, hb] at hs
  | unblock clock =>
    have hp : p.feed.parked .faults = true := h.parked.trans (decide_eq_true hlt)
    simp [Poller.step, hb, hp] at hs
  | wake clock => simp [Poller.step, isDue, hb] at hs
  | take lane =>
    obtain ⟨feed, -, rfl⟩ := Option.map_eq_some_iff.1 hs
    cases lane with
    | values => exact ⟨.inl rfl, rfl⟩
    | faults => exact absurd rfl hspare.1
  | hangUp lane =>
    cases hs
    cases lane with
    | values => exact ⟨.inr rfl, rfl⟩
    | faults => exact absurd rfl hspare.2

theorem halts (hlt : capacity < errors.length) (hspare : ∀ event ∈ events, event.SparesFaults)
    (hr : p.run events = some p') :
    (∀ event ∈ events, event = .take .values ∨ event = .hangUp .values) ∧
      p'.stage = .blocked .faults ∧ p'.previous = p.previous := by
  induction events generalizing p errors with
  | nil =>
    cases hr
    exact ⟨by simp, h.blocked.2 hlt, rfl⟩
  | cons event rest ih =>
    obtain ⟨p₁, hs, hr⟩ := Option.bind_eq_some_iff.1 hr
    obtain ⟨hevent, hrest⟩ := List.forall_mem_cons.1 hspare
    obtain ⟨hvalues, hprevious⟩ := h.halts_step hlt hevent hs
    have hlt' : capacity < (errors ++ event.failure?.toList).length := by
      rw [List.length_append]
      omega
    obtain ⟨hall, hstage, hp⟩ := ih (h.step hevent hs) hlt' hrest hr
    exact ⟨List.forall_mem_cons.2 ⟨hvalues, hall⟩, hstage, hp.trans hprevious⟩

/-- One error that is taken, or a consumer who goes away, frees the poller. -/
theorem freed (hlt : capacity < errors.length) {event : Event}
    (he : event = .take .faults ∨ event = .hangUp .faults) (clock : Clock) :
    ∃ p₁ p₂, p.step event = some p₁ ∧ p₁.step (.unblock clock) = some p₂ ∧
      p₂.stage = p.asleep clock := by
  have hb := h.blocked.2 hlt
  have hunblock {feed : Feed Changes} (hf : feed.parked .faults = false) :
      { p with feed }.step (.unblock clock) =
        some { p with feed, stage := p.asleep clock } := by
    simp only [Poller.step, hb, hf, Bool.false_eq_true, if_false]
    rfl
  obtain rfl | rfl := he
  · have hover : p.feed.IsOverfull .faults :=
      ⟨(Bool.and_eq_true_iff.1 h.accepts).2, by
        simpa [Feed.capacity, Feed.queued, h.queue, h.capacity_eq] using hlt⟩
    obtain ⟨feed, hf⟩ := Feed.take_of_isOverfull hover
    exact ⟨_, _, by simp only [Poller.step, hf, Option.map_some], hunblock (Feed.parked_take hf),
      rfl⟩
  · exact ⟨_, _, rfl, hunblock (Feed.parked_hangUp _ _), rfl⟩

end Unattended
end Poller

end UnitControl
