import UnitControl.Poller
import UnitControl.Proofs.Channel
import UnitControl.Proofs.Listing

/-!
# What a polling subscriber gets

While somebody listens, every listing that succeeds puts one message on the channel, and nothing
else does. So what the consumer has taken and what it finds queued are the changes of all listings,
in order, each within the scope of its time.
-/

namespace UnitControl

namespace Poller

namespace Event

def listing? : Event → Option (List UnitStatus)
  | .listed _ (.ok rows) => some rows
  | _ => none

/-- The members that the set of a poller has when it wants to know them. -/
def membership? : Event → Option (List String)
  | .scoped _ members => some members
  | _ => none

end Event

def listings (events : List Event) : List (List UnitStatus) := events.filterMap Event.listing?

def memberships (events : List Event) : List (List String) := events.filterMap Event.membership?

/-- The message that a consumer takes from the channel of changes with an event. -/
def takes (p : Poller) : Event → List Changes
  | .take .values => p.feed.values.queue.head?.toList
  | _ => []

def received (p : Poller) : List Event → List Changes
  | [] => []
  | event :: rest =>
    p.takes event ++ match p.step event with
      | some p' => received p' rest
      | none => []

end Poller

/-- What a poller sees of the listings that succeed one after the other. With a set for its scope,
each listing is paired with the members that the set has when the listing has come in. -/
def Scope.views (scope : Scope) (listings : List (List UnitStatus))
    (memberships : List (List String)) : List (List UnitStatus) :=
  match scope with
  | membersOf _ => List.zipWith (fun rows members => scope.rows members rows) listings memberships
  | all | named _ => listings.map (scope.rows [])

namespace Poller

/-- The listing for which a poller still has to look up its set. -/
def unscoped (p : Poller) : List (List UnitStatus) :=
  match p.stage with
  | .scoping rows => [rows]
  | _ => []

/-- Nobody closes the channel of changes, and only a poller with a set looks one up. -/
structure Regular (p : Poller) : Prop where
  values_open : p.feed.values.closed = false
  scope : p.unscoped ≠ [] → ∃ s, p.scope = .membersOf s

/-- What the consumer is still to get if these listings succeed and the set has these members. -/
def due (p : Poller) (listings : List (List UnitStatus)) (memberships : List (List String)) :
    List Changes :=
  p.feed.values.queue ++ Snapshot.diffsFrom p.isChanged p.previous
    ((p.scope.views (p.unscoped ++ listings) memberships).map .ofRows)

variable {p p' : Poller}

theorem regular_start (interval : Duration) (capacity : Nat)
    (isChanged : UnitStatus → UnitStatus → Bool) (scope : Scope) :
    (start interval capacity isChanged scope).Regular :=
  ⟨rfl, fun h => absurd rfl h⟩

theorem unscoped_send (p : Poller) (clock : Clock) (parcel : Parcel Changes) :
    (p.send clock parcel).unscoped = [] := by
  simp only [unscoped, send]
  split
  · rename_i h
    split at h <;> cases h
  · rfl

theorem closed_send (p : Poller) (clock : Clock) (parcel : Parcel Changes) :
    (p.send clock parcel).feed.values.closed = p.feed.values.closed := by
  cases parcel with
  | value changes =>
    simp only [send, Feed.send, Channel.send]
    split <;> rfl
  | fault err => rfl

theorem listening_send (p : Poller) (clock : Clock) (parcel : Parcel Changes) :
    (p.send clock parcel).feed.values.listening = p.feed.values.listening := by
  cases parcel with
  | value changes =>
    simp only [send, Feed.send, Channel.send]
    split <;> rfl
  | fault err => rfl

theorem regular_send (h : p.feed.values.closed = false) (clock : Clock) (parcel : Parcel Changes) :
    (p.send clock parcel).Regular :=
  ⟨(closed_send p clock parcel).trans h, fun hs => absurd (unscoped_send p clock parcel) hs⟩

theorem regular_publish (h : p.feed.values.closed = false) (clock : Clock)
    (rows : List UnitStatus) : (p.publish clock rows).Regular :=
  regular_send (p := { p with previous := .ofRows rows }) h clock _

theorem due_send_fault (hu : p.unscoped = []) (clock : Clock) (err : Error)
    (listings : List (List UnitStatus)) (memberships : List (List String)) :
    (p.send clock (.fault err)).due listings memberships = p.due listings memberships := by
  rw [due, due, unscoped_send, hu]
  rfl

theorem due_publish (ho : p.feed.values.closed = false) (hl : p.feed.values.listening = true)
    (clock : Clock) (rows : List UnitStatus) (listings : List (List UnitStatus))
    (memberships : List (List String)) :
    (p.publish clock rows).due listings memberships =
      p.feed.values.queue ++ Snapshot.diffsFrom p.isChanged p.previous
        ((rows :: p.scope.views listings memberships).map .ofRows) := by
  have ha : p.feed.values.accepts = true := by simp [Channel.accepts, ho, hl]
  rw [due, publish, unscoped_send]
  simp only [send, Feed.send, Channel.queue_send, ha, if_true, List.nil_append, List.map_cons,
    Snapshot.diffsFrom, List.append_assoc, List.singleton_append]

theorem unscoped_of_stage (h : ∀ rows, p.stage ≠ .scoping rows) : p.unscoped = [] := by
  unfold unscoped
  split
  · rename_i rows hs
    exact absurd hs (h rows)
  · rfl

theorem isDue_iff (p : Poller) (clock : Clock) :
    p.isDue clock = true ↔
      p.stage = .starting ∨ ∃ wake, p.stage = .sleeping wake ∧ wake ≤ clock.now := by
  unfold isDue
  split <;> simp_all

/-- A poller that looks for listeners lists if there is one, and ends otherwise. -/
theorem look_eq (p : Poller) (clock : Clock) :
    ∃ started, p.look clock =
      { p with started, stage := if p.feed.deserted then .ended else .listing } := by
  unfold look
  split
  · exact ⟨p.started, rfl⟩
  · exact ⟨clock.shown, rfl⟩

/-- What a step can do. -/
theorem step_cases {event : Event} (h : p.step event = some p') :
    (∃ clock err, event = .listed clock (.error err) ∧ p.unscoped = [] ∧
      p' = p.send clock (.fault err)) ∨
    (∃ clock rows s, event = .listed clock (.ok rows) ∧ p.unscoped = [] ∧ p.scope = .membersOf s ∧
      p' = { p with stage := .scoping rows }) ∨
    (∃ clock rows, event = .listed clock (.ok rows) ∧ p.unscoped = [] ∧
      (∀ s, p.scope ≠ .membersOf s) ∧ p' = p.publish clock (p.scope.rows [] rows)) ∨
    (∃ clock members rows, event = .scoped clock members ∧ p.unscoped = [rows] ∧
      p' = p.publish clock (p.scope.rows members rows)) ∨
    (∃ lane feed, event = .take lane ∧ p.feed.take? lane = some feed ∧ p' = { p with feed }) ∨
    (∃ lane, event = .hangUp lane ∧ p' = { p with feed := p.feed.hangUp lane }) ∨
    ∃ clock started stage, (event = .unblock clock ∨ event = .wake clock) ∧ p.unscoped = [] ∧
      (∀ rows, stage ≠ .scoping rows) ∧ p' = { p with started, stage } := by
  cases event with
  | listed clock result =>
    simp only [step] at h
    split at h
    · rename_i err hs
      exact .inl ⟨clock, err, rfl, by simp only [unscoped, hs], (Option.some.inj h).symm⟩
    · rename_i rows s hs hscope
      exact .inr (.inl ⟨clock, rows, s, rfl, by simp only [unscoped, hs], hscope,
        (Option.some.inj h).symm⟩)
    · rename_i scope rows hs hscope
      exact .inr (.inr (.inl ⟨clock, rows, rfl, by simp only [unscoped, hs], hscope,
        (Option.some.inj h).symm⟩))
    · cases h
  | «scoped» clock members =>
    simp only [step] at h
    split at h
    · rename_i rows hs
      exact .inr (.inr (.inr (.inl ⟨clock, members, rows, rfl, by simp only [unscoped, hs],
        (Option.some.inj h).symm⟩)))
    · cases h
  | take lane =>
    obtain ⟨feed, hf, rfl⟩ := Option.map_eq_some_iff.1 h
    exact .inr (.inr (.inr (.inr (.inl ⟨lane, feed, rfl, hf, rfl⟩))))
  | hangUp lane =>
    exact .inr (.inr (.inr (.inr (.inr (.inl ⟨lane, rfl, (Option.some.inj h).symm⟩)))))
  | unblock clock =>
    simp only [step] at h
    split at h
    · rename_i lane hs
      split at h
      · cases h
      · exact .inr (.inr (.inr (.inr (.inr (.inr ⟨clock, p.started, p.asleep clock, .inl rfl,
          unscoped_of_stage (by simp [hs]), by simp [asleep], (Option.some.inj h).symm⟩)))))
    · cases h
  | wake clock =>
    simp only [step] at h
    split at h
    · rename_i hdue
      obtain ⟨started, hlook⟩ := p.look_eq clock
      have hstage : ∀ rows, p.stage ≠ .scoping rows := by
        obtain hs | ⟨wake, hs, -⟩ := (p.isDue_iff clock).1 hdue <;> simp [hs]
      exact .inr (.inr (.inr (.inr (.inr (.inr ⟨clock, started, _, .inr rfl,
        unscoped_of_stage hstage, by split <;> simp, (Option.some.inj h).symm.trans hlook⟩)))))
    · cases h

theorem received_cons {event : Event} (h : p.step event = some p') (rest : List Event) :
    p.received (event :: rest) = p.takes event ++ p'.received rest := by
  simp only [received, h]

theorem listening_of_step {event : Event} (h : p.step event = some p')
    (hl : p'.feed.values.listening = true) : p.feed.values.listening = true := by
  obtain ⟨clock, err, -, -, rfl⟩ | ⟨clock, rows, s, -, -, -, rfl⟩ | ⟨clock, rows, -, -, -, rfl⟩ |
    ⟨clock, members, rows, -, -, rfl⟩ | ⟨lane, feed, -, hf, rfl⟩ | ⟨lane, -, rfl⟩ |
    ⟨clock, started, stage, -, -, -, rfl⟩ := step_cases h
  · exact hl
  · exact hl
  · exact (listening_send _ clock _).symm.trans hl
  · exact (listening_send _ clock _).symm.trans hl
  · obtain ⟨-, a, rest, -, rfl⟩ | ⟨-, err, rest, -, rfl⟩ := Feed.take_cases hf <;> exact hl
  · cases lane with
    | values => cases hl
    | faults => exact hl
  · exact hl

theorem regular_step (hr : p.Regular) {event : Event} (h : p.step event = some p') :
    p'.Regular := by
  obtain ⟨clock, err, -, -, rfl⟩ | ⟨clock, rows, s, -, -, hs, rfl⟩ | ⟨clock, rows, -, -, -, rfl⟩ |
    ⟨clock, members, rows, -, -, rfl⟩ | ⟨lane, feed, -, hf, rfl⟩ | ⟨lane, -, rfl⟩ |
    ⟨clock, started, stage, -, -, hn, rfl⟩ := step_cases h
  · exact regular_send hr.values_open clock _
  · exact ⟨hr.values_open, fun _ => ⟨s, hs⟩⟩
  · exact regular_publish hr.values_open clock _
  · exact regular_publish hr.values_open clock _
  · refine ⟨?_, hr.scope⟩
    obtain ⟨-, a, rest, -, rfl⟩ | ⟨-, err, rest, -, rfl⟩ := Feed.take_cases hf <;>
      exact hr.values_open
  · refine ⟨?_, hr.scope⟩
    cases lane <;> exact hr.values_open
  · exact ⟨hr.values_open, fun hu => absurd (unscoped_of_stage hn) hu⟩

/-- What was due before a step is what the consumer takes with it, and what is due then. -/
theorem step_due (hr : p.Regular) {event : Event} (h : p.step event = some p')
    (hl : p'.feed.values.listening = true) (listings : List (List UnitStatus))
    (memberships : List (List String)) :
    p.due (event.listing?.toList ++ listings) (event.membership?.toList ++ memberships) =
      p.takes event ++ p'.due listings memberships := by
  have hp := listening_of_step h hl
  obtain ⟨clock, err, rfl, hu, rfl⟩ | ⟨clock, rows, s, rfl, hu, hs, rfl⟩ |
    ⟨clock, rows, rfl, hu, hs, rfl⟩ | ⟨clock, members, rows, rfl, hu, rfl⟩ |
    ⟨lane, feed, rfl, hf, rfl⟩ | ⟨lane, rfl, rfl⟩ |
    ⟨clock, started, stage, he, hu, hn, rfl⟩ := step_cases h
  · exact (due_send_fault hu clock err listings memberships).symm
  · rw [due, hu]
    rfl
  · rw [due_publish hr.values_open hp, due, hu]
    have hv : ∀ l m, p.scope.views l m = l.map (p.scope.rows []) := by
      intro l m
      cases hscope : p.scope with
      | membersOf s => exact absurd hscope (hs s)
      | all => rfl
      | named keep => rfl
    rw [hv, hv]
    rfl
  · obtain ⟨s, hs⟩ := hr.scope (by simp [hu])
    rw [due_publish hr.values_open hp, due, hu, hs]
    rfl
  · obtain ⟨rfl, a, rest, hq, rfl⟩ | ⟨rfl, err, rest, -, rfl⟩ := Feed.take_cases hf
    · rw [due, hq]
      simp only [takes, hq]
      rfl
    · rfl
  · cases lane with
    | values => cases hl
    | faults => rfl
  · have hnone : event.listing? = none ∧ event.membership? = none ∧ p.takes event = [] := by
      obtain rfl | rfl := he <;> exact ⟨rfl, rfl, rfl⟩
    obtain ⟨h₁, h₂, h₃⟩ := hnone
    rw [h₁, h₂, h₃, due, due, unscoped_of_stage (p := { p with started, stage }) hn, hu]
    rfl

theorem step_scope {event : Event} (h : p.step event = some p') :
    p'.scope = p.scope ∧ p'.isChanged = p.isChanged := by
  obtain ⟨clock, err, -, -, rfl⟩ | ⟨clock, rows, s, -, -, -, rfl⟩ | ⟨clock, rows, -, -, -, rfl⟩ |
    ⟨clock, members, rows, -, -, rfl⟩ | ⟨lane, feed, -, -, rfl⟩ | ⟨lane, -, rfl⟩ |
    ⟨clock, started, stage, -, -, -, rfl⟩ := step_cases h <;> exact ⟨rfl, rfl⟩

theorem step_unscoped {event : Event} (h : p.step event = some p') {s : SetId}
    (hs : p.scope = .membersOf s) :
    p.unscoped.length + event.listing?.toList.length =
      event.membership?.toList.length + p'.unscoped.length := by
  obtain ⟨clock, err, rfl, hu, rfl⟩ | ⟨clock, rows, s', rfl, hu, -, rfl⟩ |
    ⟨clock, rows, -, -, hn, -⟩ | ⟨clock, members, rows, rfl, hu, rfl⟩ |
    ⟨lane, feed, rfl, -, rfl⟩ | ⟨lane, rfl, rfl⟩ |
    ⟨clock, started, stage, he, hu, hn, rfl⟩ := step_cases h
  · rw [hu, unscoped_send]
    rfl
  · rw [hu]
    rfl
  · exact absurd hs (hn s)
  · rw [hu, publish, unscoped_send]
    rfl
  · exact (Nat.zero_add _).symm
  · exact (Nat.zero_add _).symm
  · rw [hu, unscoped_of_stage (p := { p with started, stage }) hn]
    obtain rfl | rfl := he <;> rfl

theorem run_singleton (p : Poller) (event : Event) : p.run [event] = p.step event := by
  simp only [run]
  cases p.step event <;> rfl

theorem run_append (p : Poller) (l₁ l₂ : List Event) :
    p.run (l₁ ++ l₂) = (p.run l₁).bind fun p => p.run l₂ := by
  induction l₁ generalizing p with
  | nil => rfl
  | cons event rest ih =>
    cases h : p.step event with
    | none => simp [run, h]
    | some p' => simp [run, h, ih]

/-- What every step keeps, a run keeps. -/
theorem run_keeps {P : Poller → Prop} (hstep : ∀ {x event y}, P x → x.step event = some y → P y)
    {events : List Event} (h : P p) (hr : p.run events = some p') : P p' := by
  induction events generalizing p with
  | nil =>
    cases hr
    exact h
  | cons event rest ih =>
    obtain ⟨p₁, hs, hr⟩ := Option.bind_eq_some_iff.1 hr
    exact ih (hstep h hs) hr

theorem filterMap_cons_eq_append {α : Type} (f : Event → Option α) (event : Event)
    (rest : List Event) :
    (event :: rest).filterMap f = (f event).toList ++ rest.filterMap f := by
  cases h : f event <;> simp [h]

theorem listings_cons (event : Event) (rest : List Event) :
    listings (event :: rest) = event.listing?.toList ++ listings rest :=
  filterMap_cons_eq_append _ _ _

theorem memberships_cons (event : Event) (rest : List Event) :
    memberships (event :: rest) = event.membership?.toList ++ memberships rest :=
  filterMap_cons_eq_append _ _ _

/-- What every step keeps of a poller and a list to which it adds, a run keeps with all that is
added. -/
theorem run_collects {α : Type} {P : Poller → List α → Prop} {f : Event → Option α}
    {events : List Event} (hstep : ∀ event ∈ events, ∀ {x l y}, P x l → x.step event = some y →
      P y (l ++ (f event).toList))
    {l : List α} (h : P p l) (hr : p.run events = some p') : P p' (l ++ events.filterMap f) := by
  induction events generalizing p l with
  | nil =>
    cases hr
    exact (List.append_nil l).symm ▸ h
  | cons event rest ih =>
    obtain ⟨p₁, hs, hr⟩ := Option.bind_eq_some_iff.1 hr
    obtain ⟨hevent, hrest⟩ := List.forall_mem_cons.1 hstep
    rw [filterMap_cons_eq_append, ← List.append_assoc]
    exact ih hrest (hevent h hs) hr

theorem due_nil (hr : p.Regular) : p.due [] [] = p.feed.values.queue := by
  have hv : p.scope.views (p.unscoped ++ []) [] = [] := by
    cases hu : p.unscoped with
    | nil => cases p.scope <;> rfl
    | cons rows rest =>
      obtain ⟨s, hs⟩ := hr.scope (by simp [hu])
      rw [hs]
      rfl
  rw [due, hv]
  exact List.append_nil _

theorem run_due (hr : p.Regular) {events : List Event} (h : p.run events = some p')
    (hl : p'.feed.values.listening = true) :
    p.feed.values.listening = true ∧
      p.due (listings events) (memberships events) = p.received events ++ p'.feed.values.queue := by
  induction events generalizing p with
  | nil =>
    cases h
    exact ⟨hl, due_nil hr⟩
  | cons event rest ih =>
    obtain ⟨p₁, hs, h⟩ := Option.bind_eq_some_iff.1 h
    obtain ⟨hl₁, hd⟩ := ih (regular_step hr hs) h
    refine ⟨listening_of_step hs hl₁, ?_⟩
    rw [listings_cons, memberships_cons, step_due hr hs hl₁, hd, received_cons hs,
      List.append_assoc]

theorem run_regular (hr : p.Regular) {events : List Event} (h : p.run events = some p') :
    p'.Regular ∧ p'.scope = p.scope :=
  run_keeps (P := fun x => x.Regular ∧ x.scope = p.scope)
    (fun ⟨hr, he⟩ hs => ⟨regular_step hr hs, (step_scope hs).1.trans he⟩) ⟨hr, rfl⟩ h

theorem run_unscoped {events : List Event} (h : p.run events = some p') {s : SetId}
    (hs : p.scope = .membersOf s) :
    p.unscoped.length + (listings events).length =
      (memberships events).length + p'.unscoped.length := by
  induction events generalizing p with
  | nil =>
    cases h
    exact Nat.add_comm _ _
  | cons event rest ih =>
    obtain ⟨p₁, h₁, h⟩ := Option.bind_eq_some_iff.1 h
    have hu := step_unscoped h₁ hs
    have ih := ih h ((step_scope h₁).1.trans hs)
    rw [listings_cons, memberships_cons, List.length_append, List.length_append]
    omega

theorem length_views (scope : Scope) (listings : List (List UnitStatus))
    (memberships : List (List String)) (n : Nat)
    (h : ∀ s, scope = .membersOf s → listings.length = memberships.length + n)
    (hn : (∀ s, scope ≠ .membersOf s) → n = 0) :
    listings.length = (scope.views listings memberships).length + n := by
  cases scope with
  | all => simp [Scope.views, hn (by simp)]
  | named keep => simp [Scope.views, hn (by simp)]
  | membersOf s =>
    have hs := h s rfl
    simp only [Scope.views, List.length_zipWith]
    omega

/-- What the consumer of a poller has taken and what it finds queued are the changes of the listings
that have succeeded, one message for each. One listing at most has still to be looked at. -/
theorem run_start_messages {interval : Duration} {capacity : Nat}
    {isChanged : UnitStatus → UnitStatus → Bool} {scope : Scope} {events : List Event}
    (h : (start interval capacity isChanged scope).run events = some p)
    (hl : p.feed.values.listening = true) :
    (start interval capacity isChanged scope).received events ++ p.feed.values.queue =
        Snapshot.diffs isChanged
          ((scope.views (listings events) (memberships events)).map .ofRows) ∧
      (listings events).length =
        (scope.views (listings events) (memberships events)).length + p.unscoped.length := by
  have hstart := regular_start interval capacity isChanged scope
  obtain ⟨hr, hs⟩ := run_regular hstart h
  refine ⟨(run_due hstart h hl).2.symm, length_views _ _ _ _ ?_ ?_⟩
  · intro s hscope
    have hu := run_unscoped h (s := s) hscope
    rw [← hu]
    exact (Nat.zero_add _).symm
  · intro hn
    cases hu : p.unscoped with
    | nil => rfl
    | cons rows rest =>
      obtain ⟨s, hs'⟩ := hr.scope (by simp [hu])
      exact absurd (hs.symm.trans hs') (hn s)

end Poller

end UnitControl
