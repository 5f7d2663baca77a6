import UnitControl.Proofs.Engine.Polling
import UnitControl.Proofs.Engine.Routine

/-!
# When a poller lists

The calls with which a poller lists the units are in the journal. A poller makes one when it starts
or wakes and somebody listens, and at no other time.
-/

namespace UnitControl

def Entry.isListCall (id : PollerId) : Entry → Bool
  | .asked (.list (.poller i)) => i == id
  | _ => false

namespace Engine

def listCalls (e : Engine) (id : PollerId) : Nat := e.journal.countP (Entry.isListCall id)

variable {e e' : Engine} {id : PollerId} {p : Poller} {event : Event} {events : List Event}

/-- The poller has asked for no listing in between. -/
def SameCalls (id : PollerId) (e e' : Engine) : Prop := e'.listCalls id = e.listCalls id

theorem SameCalls.note (e : Engine) {entry : Entry} (h : entry.isListCall id = false) :
    SameCalls id e (e.note entry) :=
  List.countP_cons_of_neg (by simp [h])

theorem SameCalls.keptByRoutine (id : PollerId) : KeptByRoutine (SameCalls id) where
  trans h h' := h'.trans h
  of_eq _ hj := by rw [SameCalls, listCalls, hj, listCalls]
  note e entry h := by
    refine SameCalls.note e ?_
    cases entry with
    | asked request =>
      cases request with
      | list task => cases task <;> first | rfl | cases h
      | _ => rfl
    | _ => rfl

theorem SameCalls.keptByOperations (id : PollerId) : KeptByOperations (SameCalls id) :=
  (keptByRoutine id).operations fun _ _ _ => rfl

theorem SameCalls.afterPoll (e : Engine) {i : PollerId} {q : Poller}
    (hn : i = id → q.stage ≠ .listing) : SameCalls id e (e.afterPoll i q) := by
  refine (keptByRoutine id).afterPoll e i q fun hq x => SameCalls.note x ?_
  simpa [Entry.isListCall] using fun hi => hn hi hq

theorem listCalls_afterPoll (e : Engine) {q : Poller} (hs : q.stage = .listing) :
    (e.afterPoll id q).listCalls id = e.listCalls id + 1 := by
  unfold afterPoll
  dsimp only
  rw [if_pos (q.isListing_iff.2 hs)]
  change List.countP _ (.asked (.list (.poller id)) :: e.journal) = _
  exact List.countP_cons_of_pos (by simp [Entry.isListCall])

theorem listCalls_of_stepPoller {i : PollerId} {noticed : Poller.Event}
    (h : e.stepPoller? i noticed = some e') (hp : e.pollers.get? id = some p)
    (hown : ∀ lane, noticed ≠ .take lane ∧ noticed ≠ .hangUp lane) : SameCalls id e e' ∨
      i = id ∧ (∃ clock, noticed = .wake clock) ∧ p.feed.deserted = false ∧
        e'.listCalls id = e.listCalls id + 1 := by
  unfold stepPoller? at h
  split at h
  · rename_i q hq
    obtain ⟨q', hs, rfl⟩ := Option.map_eq_some_iff.1 h
    by_cases hlisting : i = id ∧ q'.stage = .listing
    · obtain ⟨rfl, hlisting⟩ := hlisting
      cases Option.some.inj (hp.symm.trans hq)
      obtain ⟨hwake, hd⟩ | ⟨lane, ht | hh⟩ := Poller.listing_of_step hs hlisting
      · exact .inr ⟨rfl, hwake, hd, listCalls_afterPoll e hlisting⟩
      · exact absurd ht (hown lane).1
      · exact absurd hh (hown lane).2
    · exact .inl (.afterPoll e fun hi hl => hlisting ⟨hi, hl⟩)
  · cases h

theorem listCalls_of_reaction (h : e.Reaction event e') (hp : e.pollers.get? id = some p)
    (hid : id < e.fresh) : SameCalls id e e' ∨
      event = .wakePoller id ∧ p.feed.deserted = false ∧
        e'.listCalls id = e.listCalls id + 1 := by
  have hkept := SameCalls.keptByRoutine id
  cases hevent : event.isRoutine with
  | true => exact .inl (hkept.reaction h hevent)
  | false =>
    cases h with
    | @call call h =>
      cases call with
      | close s => exact .inl rfl
      | _ => cases hevent
    | openSet h | dropSet s => exact .inl rfl
    | poll h => exact .inl rfl
    | matchReturned answer h => exact .inl ((SameCalls.keptByOperations id).proceed _ _ _)
    | @polled i result e' h =>
      obtain hsame | ⟨-, ⟨clock, hwake⟩, -⟩ :=
        listCalls_of_stepPoller (e := e.note (.listed i result)) h hp (by simp)
      · exact .inl hsame
      · cases hwake
    | @grant task hh hq =>
      exact .inl (hkept.enter { e with queue := e.queue.erase task } task fun op _ =>
        (SameCalls.keptByOperations id).operate _ task op)
    | unblockPoller h =>
      obtain hsame | ⟨-, ⟨clock, hwake⟩, -⟩ := listCalls_of_stepPoller h hp (by simp)
      · exact .inl hsame
      · cases hwake
    | wakePoller h =>
      obtain hsame | ⟨rfl, -, hcalled⟩ := listCalls_of_stepPoller h hp (by simp)
      · exact .inl hsame
      · exact .inr ⟨rfl, hcalled⟩
    | dropHandle => exact .inl rfl
    | tick passed shown => exact .inl rfl
    | _ => cases hevent

theorem listCalls_of_step (h : e.step event = some e') (hp : e.pollers.get? id = some p)
    (hid : id < e.fresh) : SameCalls id e e' ∨
      event = .wakePoller id ∧ p.feed.deserted = false ∧ e'.listCalls id = e.listCalls id + 1 :=
  of_step h (fun _ hr => listCalls_of_reaction hr hp hid) fun _ hx => hx

theorem listCalls_of_run (h : e.run events = some e') (hp : e.pollers.get? id = some p)
    (hid : id < e.fresh) (hd : p.feed.deserted = true) : e'.listCalls id = e.listCalls id := by
  induction events generalizing e p with
  | nil =>
    cases h
    rfl
  | cons event rest ih =>
    obtain ⟨e₁, hs, h⟩ := Option.bind_eq_some_iff.1 h
    obtain ⟨p₁, hp₁, hrun⟩ := poller_step hs hp hid
    have hd₁ : p₁.feed.deserted = true := Poller.enduring_run Feed.enduring_deserted hrun hd
    have hlater := ih h hp₁ (Nat.lt_of_lt_of_le hid (fresh_le_of_step hs)) hd₁
    obtain hsame | ⟨-, hheard, -⟩ := listCalls_of_step hs hp hid
    · exact hlater.trans hsame
    · rw [hd] at hheard
      cases hheard

end Engine

end UnitControl
