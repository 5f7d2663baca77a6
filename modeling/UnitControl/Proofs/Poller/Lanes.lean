import UnitControl.Proofs.Feed
import UnitControl.Proofs.Poller.Backlog

/-!
# The two lanes of a poller

Nobody but their consumers does anything to the lanes of a poller, and only their consumers drop
them. What was sent on a lane has been taken or is still queued, as long as the consumer is there;
with the consumer goes what it has not taken.
-/

namespace UnitControl

namespace Feed

variable {α : Type} {f f' : Feed α} {lane l : Lane}

theorem send_of_not_accepts {parcel : Parcel α} (h : f.accepts parcel.lane = false) :
    f.send parcel = f := by
  cases parcel with
  | value a =>
    have h : f.values.accepts = false := h
    simp [send, Channel.send, h]
  | fault err =>
    have h : f.faults.accepts = false := h
    simp [send, Channel.send, h]

/-- What a feed keeps as long as nobody closes it. -/
structure Enduring (P : Feed α → Prop) : Prop where
  send : ∀ f parcel, P f → f.accepts parcel.lane = true → P (f.send parcel)
  take : ∀ f lane f', P f → f.take? lane = some f' → P f'
  hangUp : ∀ f lane, P f → P (f.hangUp lane)

theorem Lasting.enduring {P : Feed α → Prop} (h : Lasting P) : Enduring P :=
  ⟨h.send, h.take, h.hangUp⟩

theorem listening_send (f : Feed α) (parcel : Parcel α) (l : Lane) :
    (f.send parcel).listening l = f.listening l := by
  cases ha : f.accepts parcel.lane with
  | false => rw [send_of_not_accepts ha]
  | true => exact congrFun (congrArg Box.listening (box_send ha)) l

theorem listening_take (h : f.take? lane = some f') (l : Lane) :
    f'.listening l = f.listening l := by
  obtain ⟨parcel, rest, -, hb⟩ := box_take h
  exact congrFun (congrArg Box.listening hb) l

theorem listening_hangUp (f : Feed α) (lane l : Lane) :
    (f.hangUp lane).listening l = if l = lane then false else f.listening l :=
  (congrFun (congrArg Box.listening (f.box_hangUp lane)) l).trans (f.box.listening_hangUp lane l)

/-- Neither channel is closed. -/
def IsOpen (f : Feed α) : Prop := f.values.closed = false ∧ f.faults.closed = false

theorem IsOpen.accepts (h : f.IsOpen) (hl : f.listening lane = true) : f.accepts lane = true := by
  cases lane with
  | values => exact Bool.and_eq_true_iff.2 ⟨by rw [h.1]; rfl, hl⟩
  | faults => exact Bool.and_eq_true_iff.2 ⟨by rw [h.2]; rfl, hl⟩

theorem enduring_isOpen : Enduring (IsOpen (α := α)) where
  send f parcel h _ := by
    cases parcel with
    | value a => exact ⟨(f.values.closed_send a).trans h.1, h.2⟩
    | fault err => exact ⟨h.1, (f.faults.closed_send err).trans h.2⟩
  take f lane f' h ht := by
    obtain ⟨-, a, rest, -, rfl⟩ | ⟨-, err, rest, -, rfl⟩ := take_cases ht <;> exact h
  hangUp f lane h := by cases lane <;> exact h

/-- Where nobody listens, nothing is left. -/
def IsDeaf (f : Feed α) (lane : Lane) : Prop := f.listening lane = false → f.queued lane = []

theorem enduring_isDeaf (lane : Lane) : Enduring (fun f : Feed α => f.IsDeaf lane) where
  send f parcel h ha hl := by
    rw [listening_send] at hl
    have hne : lane ≠ parcel.lane := by
      rintro rfl
      rw [listening_of_accepts ha] at hl
      cases hl
    have hq := congrFun (congrArg Box.queued (box_send ha)) lane
    exact (hq.trans ((f.box.queued_setQueue _ _ lane).trans (if_neg hne))).trans (h hl)
  take f l f' h ht hl := by
    obtain ⟨parcel, rest, hq, hb⟩ := box_take ht
    rw [listening_take ht] at hl
    have hq' := congrFun (congrArg Box.queued hb) lane
    have hne : lane ≠ l := by
      rintro rfl
      rw [h hl] at hq
      cases hq
    exact (hq'.trans ((f.box.queued_setQueue _ _ lane).trans (if_neg hne))).trans (h hl)
  hangUp f l h hl := by
    have hq := congrFun (congrArg Box.queued (f.box_hangUp l)) lane
    refine hq.trans ((f.box.queued_hangUp l lane).trans ?_)
    split
    · rfl
    · rename_i hne
      rw [listening_hangUp, if_neg hne] at hl
      exact h hl

theorem deserted_iff : f.deserted = true ↔ ∀ lane, f.listening lane = false := by
  simp only [deserted, Bool.and_eq_true, Bool.not_eq_true']
  exact ⟨fun h lane => by cases lane <;> simp [listening, h], fun h => ⟨h .values, h .faults⟩⟩

theorem enduring_deserted : Enduring (fun f : Feed α => f.deserted = true) where
  send f parcel h _ := by
    simp only [deserted_iff, listening_send] at h ⊢
    exact h
  take f lane f' h ht := by
    simp only [deserted_iff, listening_take ht] at h ⊢
    exact h
  hangUp f lane h := by
    simp only [deserted_iff, listening_hangUp] at h ⊢
    exact fun l => by rw [h l, ite_self]

end Feed

namespace Poller

open Feed (Enduring)

variable {p p' : Poller} {event : Event} {events : List Event} {lane : Lane}

theorem turn_cases (h : p.step event = some p') :
    (∃ clock parcel, (p.stage = .listing ∨ ∃ rows, p.stage = .scoping rows) ∧
      (∀ lane, event ≠ .hangUp lane) ∧ p'.feed = p.feed.send parcel ∧
      p'.stage = if p'.feed.parked parcel.lane then .blocked parcel.lane
        else p.asleep clock) ∨
    (∃ clock rows, event = .listed clock (.ok rows) ∧ p.stage = .listing ∧ p'.feed = p.feed ∧
      p'.stage = .scoping rows) ∨
    (∃ clock lane, event = .unblock clock ∧ p.stage = .blocked lane ∧ p.feed.parked lane = false ∧
      p'.feed = p.feed ∧ p'.stage = p.asleep clock) ∨
    (∃ clock, event = .wake clock ∧
      (p.stage = .starting ∨ ∃ wake, p.stage = .sleeping wake ∧ wake ≤ clock.now) ∧
      p'.feed = p.feed ∧ p'.stage = if p.feed.deserted then .ended else .listing) ∨
    (∃ lane, event = .take lane ∧ p.feed.take? lane = some p'.feed ∧ p'.stage = p.stage) ∨
    ∃ lane, event = .hangUp lane ∧ p'.feed = p.feed.hangUp lane ∧ p'.stage = p.stage := by
  cases event with
  | listed clock result =>
    simp only [step] at h
    split at h
    · rename_i hs
      cases h
      exact .inl ⟨clock, _, .inl hs, by simp, rfl, rfl⟩
    · rename_i rows s hs hscope
      cases h
      exact .inr (.inl ⟨clock, rows, rfl, hs, rfl, rfl⟩)
    · rename_i scope rows hs hscope
      cases h
      exact .inl ⟨clock, _, .inl hs, by simp, rfl, rfl⟩
    · cases h
  | «scoped» clock members =>
    simp only [step] at h
    split at h
    · rename_i rows hs
      cases h
      exact .inl ⟨clock, _, .inr ⟨rows, hs⟩, by simp, rfl, rfl⟩
    · cases h
  | unblock clock =>
    simp only [step] at h
    split at h
    · rename_i lane hs
      split at h
      · cases h
      · rename_i hp
        cases h
        exact .inr (.inr (.inl ⟨clock, lane, rfl, hs, Bool.not_eq_true _ ▸ hp, rfl, rfl⟩))
    · cases h
  | wake clock =>
    simp only [step] at h
    split at h
    · rename_i hdue
      obtain ⟨started, hlook⟩ := p.look_eq clock
      cases h
      exact .inr (.inr (.inr (.inl ⟨clock, rfl, (p.isDue_iff clock).1 hdue, by rw [hlook],
        by rw [hlook]⟩)))
    · cases h
  | take lane =>
    obtain ⟨feed, hf, rfl⟩ := Option.map_eq_some_iff.1 h
    exact .inr (.inr (.inr (.inr (.inl ⟨lane, rfl, hf, rfl⟩))))
  | hangUp lane =>
    cases h
    exact .inr (.inr (.inr (.inr (.inr ⟨lane, rfl, rfl, rfl⟩))))

theorem enduring_step {P : Feed Changes → Prop} (hP : Enduring P) (h : p.step event = some p')
    (hp : P p.feed) : P p'.feed := by
  obtain ⟨clock, parcel, -, -, hf, -⟩ | ⟨clock, rows, -, -, hf, -⟩ | ⟨clock, lane, -, -, -, hf, -⟩ |
    ⟨clock, -, -, hf, -⟩ | ⟨lane, -, hf, -⟩ | ⟨lane, -, hf, -⟩ := turn_cases h
  · rw [hf]
    cases ha : p.feed.accepts parcel.lane with
    | true => exact hP.send _ _ hp ha
    | false => rwa [Feed.send_of_not_accepts ha]
  · rwa [hf]
  · rwa [hf]
  · rwa [hf]
  · exact hP.take _ _ _ hp hf
  · rw [hf]
    exact hP.hangUp _ _ hp

theorem enduring_run {P : Feed Changes → Prop} (hP : Enduring P) (h : p.run events = some p')
    (hp : P p.feed) : P p'.feed :=
  run_keeps (P := fun x => P x.feed) (fun hp hs => enduring_step hP hs hp) hp h

theorem isListing_iff (p : Poller) : p.isListing = true ↔ p.stage = .listing := by
  unfold isListing
  split
  · rename_i hs
    simp [hs]
  · rename_i hs
    exact ⟨fun h => (by cases h), fun h => absurd h hs⟩

theorem listing_of_step (h : p.step event = some p') (hs : p'.stage = .listing) :
    ((∃ clock, event = .wake clock) ∧ p.feed.deserted = false) ∨
      ∃ lane, event = .take lane ∨ event = .hangUp lane := by
  obtain ⟨clock, parcel, -, -, -, hs'⟩ | ⟨clock, rows, -, -, -, hs'⟩ | ⟨clock, l, -, -, -, -, hs'⟩ |
    ⟨clock, rfl, -, -, hs'⟩ | ⟨l, rfl, -⟩ | ⟨l, rfl, -⟩ := turn_cases h
  · rw [hs'] at hs
    split at hs <;> cases hs
  · rw [hs'] at hs
    cases hs
  · rw [hs'] at hs
    cases hs
  · rw [hs'] at hs
    split at hs
    · cases hs
    · exact .inl ⟨⟨clock, rfl⟩, Bool.not_eq_true _ ▸ ‹_›⟩
  · exact .inr ⟨l, .inl rfl⟩
  · exact .inr ⟨l, .inr rfl⟩

theorem scope_of_run (h : p.run events = some p') : p'.scope = p.scope :=
  run_keeps (P := fun x => x.scope = p.scope) (fun he hs => (step_scope hs).1.trans he) rfl h

theorem listening_step (h : p.step event = some p') :
    p'.feed.listening lane = true ↔ event ≠ .hangUp lane ∧ p.feed.listening lane = true := by
  obtain ⟨clock, parcel, -, hn, hf, -⟩ | ⟨clock, rows, rfl, -, hf, -⟩ |
    ⟨clock, l, rfl, -, -, hf, -⟩ | ⟨clock, rfl, -, hf, -⟩ | ⟨l, rfl, hf, -⟩ |
    ⟨l, rfl, hf, -⟩ := turn_cases h
  · rw [hf, Feed.listening_send]
    simp [hn lane]
  · simp [hf]
  · simp [hf]
  · simp [hf]
  · rw [Feed.listening_take hf]
    simp
  · rw [hf, Feed.listening_hangUp]
    by_cases hl : lane = l
    · simp [hl]
    · simp [hl, Ne.symm hl]

theorem listening_run (h : p.run events = some p') :
    p'.feed.listening lane = true ↔ .hangUp lane ∉ events ∧ p.feed.listening lane = true := by
  induction events generalizing p with
  | nil =>
    cases h
    simp
  | cons event rest ih =>
    obtain ⟨p₁, hs, h⟩ := Option.bind_eq_some_iff.1 h
    rw [ih h, listening_step hs, List.mem_cons, not_or]
    exact ⟨fun ⟨hr, he, hl⟩ => ⟨⟨he.symm, hr⟩, hl⟩, fun ⟨⟨he, hr⟩, hl⟩ => ⟨hr, Ne.symm he, hl⟩⟩

end Poller

abbrev Lane.Message : Lane → Type
  | .values => Changes
  | .faults => Error

namespace Poller

variable {p p' : Poller} {event : Event} {events : List Event} {lane : Lane}

def channel (p : Poller) : (lane : Lane) → Channel lane.Message
  | .values => p.feed.values
  | .faults => p.feed.faults

/-- What a consumer takes from a lane with an event. -/
def takesFrom (p : Poller) (lane : Lane) : Event → List lane.Message
  | .take l => if l = lane then (p.channel lane).queue.head?.toList else []
  | _ => []

/-- What a consumer takes from a lane in a run. -/
def gets (p : Poller) (lane : Lane) : List Event → List lane.Message
  | [] => []
  | event :: rest =>
    p.takesFrom lane event ++ match p.step event with
      | some p' => gets p' lane rest
      | none => []

/-- What a run that leads to `p'` has brought out on a lane: what was taken, and what is queued. -/
def issued (p : Poller) (lane : Lane) (events : List Event) (p' : Poller) : List lane.Message :=
  p.gets lane events ++ (p'.channel lane).queue

theorem issued_cons {p₁ : Poller} (h : p.step event = some p₁) (rest : List Event) :
    p.issued lane (event :: rest) p' = p.takesFrom lane event ++ p₁.issued lane rest p' := by
  simp only [issued, gets, h, List.append_assoc]

theorem takesFrom_values (p : Poller) (event : Event) :
    p.takesFrom .values event = p.takes event := by
  cases event with
  | take l => cases l <;> rfl
  | _ => rfl

theorem queue_eq_nil_iff : (p.channel lane).queue = [] ↔ p.feed.queued lane = [] := by
  cases lane <;> exact List.map_eq_nil_iff.symm

theorem takesFrom_of_not_listening (hd : p.feed.IsDeaf lane) (h : p.step event = some p')
    (hl : p'.feed.listening lane = false) : p.takesFrom lane event = [] := by
  cases event with
  | take l =>
    have hlisten : p.feed.listening lane = false := by
      rw [← hl, Bool.eq_iff_iff, listening_step h]
      simp
    rw [takesFrom, queue_eq_nil_iff.2 (hd hlisten)]
    split <;> rfl
  | _ => rfl

theorem issued_of_not_listening (hd : p.feed.IsDeaf lane) (hl : p.feed.listening lane = false)
    (h : p.run events = some p') : p.issued lane events p' = [] := by
  induction events generalizing p with
  | nil =>
    cases h
    exact queue_eq_nil_iff.2 (hd hl)
  | cons event rest ih =>
    obtain ⟨p₁, hs, h⟩ := Option.bind_eq_some_iff.1 h
    have hl₁ : p₁.feed.listening lane = false := by
      rw [← Bool.not_eq_true, listening_step hs, hl]
      simp
    rw [issued_cons hs, takesFrom_of_not_listening hd hs hl₁]
    exact ih (enduring_step (Feed.enduring_isDeaf lane) hs hd) hl₁ h

/-- `due` tells what is queued on a lane and what the rest of a run is to bring, as long as the
consumer is there. -/
structure Owes (lane : Lane) (Inv : Poller → Prop)
    (due : Poller → List Event → List lane.Message) : Prop where
  deaf : ∀ {p}, Inv p → p.feed.IsDeaf lane
  step : ∀ {p p' event}, Inv p → p.step event = some p' → Inv p'
  rest : ∀ {p}, Inv p → due p [] = (p.channel lane).queue
  turn : ∀ {p p' event} rest, Inv p → p.step event = some p' →
    p'.feed.listening lane = true → due p (event :: rest) = p.takesFrom lane event ++ due p' rest

theorem Owes.run {Inv : Poller → Prop} {due : Poller → List Event → List lane.Message}
    (ho : Owes lane Inv due) (hi : Inv p) (h : p.run events = some p') :
    p.issued lane events p' <+: due p events ∧
      (p'.feed.listening lane = true → p.issued lane events p' = due p events) := by
  induction events generalizing p with
  | nil =>
    cases h
    rw [ho.rest hi]
    exact ⟨List.prefix_rfl, fun _ => rfl⟩
  | cons event rest ih =>
    obtain ⟨p₁, hs, h⟩ := Option.bind_eq_some_iff.1 h
    have hi₁ := ho.step hi hs
    cases hl : p₁.feed.listening lane with
    | true =>
      obtain ⟨hpre, heq⟩ := ih hi₁ h
      rw [issued_cons hs, ho.turn rest hi hs hl]
      exact ⟨(List.prefix_append_right_inj _).2 hpre, fun hl' => congrArg _ (heq hl')⟩
    | false =>
      rw [issued_cons hs, takesFrom_of_not_listening (ho.deaf hi) hs hl,
        issued_of_not_listening (ho.deaf hi₁) hl h]
      refine ⟨List.nil_prefix, fun hl' => ?_⟩
      rw [((listening_run h).1 hl').2] at hl
      cases hl

theorem owes_changes : Owes .values (fun p => p.Regular ∧ p.feed.IsDeaf .values)
    fun p events => p.due (listings events) (memberships events) where
  deaf h := h.2
  step h hs := ⟨regular_step h.1 hs, enduring_step (Feed.enduring_isDeaf _) hs h.2⟩
  rest h := due_nil h.1
  turn {p p' event} rest h hs hl := by
    rw [listings_cons, memberships_cons, step_due h.1 hs hl, takesFrom_values]

theorem faults_step (ho : p.feed.IsOpen) (h : p.step event = some p')
    (hl : p'.feed.listening .faults = true) :
    p.feed.faults.queue ++ event.failure?.toList =
      p.takesFrom .faults event ++ p'.feed.faults.queue := by
  have ha : p.feed.faults.accepts = true := ho.accepts ((listening_step h).1 hl).2
  obtain ⟨clock, err, rfl, -, rfl⟩ | ⟨clock, rows, s, rfl, -, -, rfl⟩ |
    ⟨clock, rows, rfl, -, -, rfl⟩ | ⟨clock, members, rows, rfl, -, rfl⟩ |
    ⟨lane, feed, rfl, hf, rfl⟩ | ⟨lane, rfl, rfl⟩ |
    ⟨clock, started, stage, he, -, -, rfl⟩ := step_cases h
  · simp only [send, Feed.send, Channel.queue_send, ha, if_true]
    rfl
  · exact List.append_nil _
  · exact List.append_nil _
  · exact List.append_nil _
  · obtain ⟨rfl, a, rest, -, rfl⟩ | ⟨rfl, err, rest, hq, rfl⟩ := Feed.take_cases hf
    · exact List.append_nil _
    · rw [hq]
      simp only [takesFrom, channel, hq]
      exact List.append_nil _
  · cases lane with
    | values => exact List.append_nil _
    | faults => cases hl
  · obtain rfl | rfl := he <;> exact List.append_nil _

theorem owes_errors : Owes .faults (fun p => p.feed.IsOpen ∧ p.feed.IsDeaf .faults)
    fun p events => p.feed.faults.queue ++ failures events where
  deaf h := h.2
  step h hs :=
    ⟨enduring_step Feed.enduring_isOpen hs h.1, enduring_step (Feed.enduring_isDeaf _) hs h.2⟩
  rest _ := List.append_nil _
  turn {p p' event} rest h hs hl := by
    rw [failures_cons, ← List.append_assoc, faults_step h.1 hs hl]
    exact List.append_assoc _ _ _

variable {interval : Duration} {capacity : Nat} {isChanged : UnitStatus → UnitStatus → Bool}
  {scope : Scope}

theorem issued_changes (h : (start interval capacity isChanged scope).run events = some p) :
    let messages := (start interval capacity isChanged scope).issued .values events p
    let changes := Snapshot.diffs isChanged
      ((scope.views (listings events) (memberships events)).map .ofRows)
    messages <+: changes ∧ (p.feed.listening .values = true → messages = changes) :=
  owes_changes.run ⟨regular_start interval capacity isChanged scope, fun h => by cases h⟩ h

theorem issued_errors (h : (start interval capacity isChanged scope).run events = some p) :
    let messages := (start interval capacity isChanged scope).issued .faults events p
    messages <+: failures events ∧
      (p.feed.listening .faults = true → messages = failures events) :=
  owes_errors.run ⟨⟨rfl, rfl⟩, fun h => by cases h⟩ h

end Poller

end UnitControl
