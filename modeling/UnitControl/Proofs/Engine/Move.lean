import UnitControl.Proofs.Engine.Alike
import UnitControl.Proofs.Engine.Reaction

/-!
# The moves of an engine

Up to alikeness a step is one of a few moves, each of which says in full what becomes of the
callers, of the registry, and of what the dispatcher has before it.
-/

namespace UnitControl

/-- What a caller with this number may wait for that has nothing to do with the dispatcher. A
subscription is known by the number of the caller that makes it. -/
def Wait.Suits (id : CallerId) : Wait → Prop
  | job _ | pending => False
  | listing | query _ => True
  | operation op finish =>
    (∀ feed, op.newcomer? = some feed → feed = id) ∧
      ∀ next cause, finish = .undo next cause → next.newcomer? = none

namespace Engine

/-- The operation with which a task wants to begin when it gets the registry. -/
def Intends (e : Engine) (task : Task) (op : Registry.Operation) : Prop :=
  match task with
  | .caller id => ∃ finish, e.callers.get? id = some (.operation op finish)
  | .watcher feed => ∃ o, e.outlets.get? feed = some o ∧ o.ending = op
  | .dispatcher | .poller _ => False

/-- What the end of an operation means to the caller that made it. -/
def settle (e : Engine) (task : Task) (result : Except Error Unit) : Engine :=
  match task with
  | .caller id =>
    match e.callers.get? id with
    | some (.operation _ finish) =>
      match result, finish with
      | .ok _, .undo next cause =>
        e.await id (.operation next (.fail (.noRuntime "unitlink-cancel" cause)))
      | .ok _, .fail cause => e.answer id (.done (.error cause))
      | result, _ => e.answer id (.done result)
    | _ => e
  | .watcher _ | .dispatcher | .poller _ => e

/-- What becomes of the registry and of the caller when an operation has come to `p`. -/
def book (e : Engine) (task : Task) (p : Registry × Registry.Progress) : Engine :=
  match p.2 with
  | .done result => { e with registry := p.1 }.settle task result
  | .ask call pause =>
    { e with registry := p.1, holder := some ⟨task, call, pause⟩ }.note (.asked (.matchRule call))

inductive Move : Engine → Engine → Prop
  | rest (e : Engine) : Move e e
  | number (e : Engine) : Move e { e with fresh := e.fresh + 1 }
  /-- A new caller is turned away at once, with no dispatcher to blame but one that has stopped. -/
  | refuse (e : Engine) {a : Answer} (ha : ∀ out, a ≠ .job (.ok out))
      (hd : ∀ context, a = .job (.error (.disconnected context)) →
        e.dispatcher.hasStopped = true) :
      Move e ({ e with fresh := e.fresh + 1 }.note (.answered e.fresh a))
  | enrol {e : Engine} {w : Wait} (hw : w.Suits e.fresh) :
      Move e ({ e with fresh := e.fresh + 1 }.await e.fresh w)
  | submit {e : Engine} {request : JobRequest} {limit : Option (Nat × Error)}
      (hs : e.dispatcher.hasStopped = false)
      (hl : ∀ time err, limit = some (time, err) → ∃ d, err = .jobTimeout request.unit d) :
      Move e (({ e with fresh := e.fresh + 1 }.await e.fresh (.job limit)).send
        (.submit e.fresh request))
  | count {e : Engine} (hs : e.dispatcher.hasStopped = false) :
      Move e (({ e with fresh := e.fresh + 1 }.await e.fresh .pending).send (.count e.fresh))
  /-- A caller that waits for neither the dispatcher nor an operation gets its answer. -/
  | serve {e : Engine} {id : CallerId} {w : Wait} {a : Answer} (h : e.callers.get? id = some w)
      (hw : w = .listing ∨ ∃ q, w = .query q) (ha : ∀ result, a ≠ .job result) :
      Move e (e.answer id a)
  | expire {e : Engine} {id : CallerId} {time : Nat} {err : Error}
      (h : e.callers.get? id = some (.job (some (time, err)))) :
      Move e (e.answer id (.job (.error err)))
  | operate {e : Engine} {task : Task} {op : Registry.Operation} (hh : e.holder = none)
      (hi : e.Intends task op) : Move e (e.book task (e.registry.begin op))
  | resume {e : Engine} {holder : Holder} (answer : Except Error Unit)
      (hh : e.holder = some holder) :
      Move e (({ e with holder := none }.note (.matchReturned holder.call answer)).book
        holder.task (e.registry.resume answer holder.pause))
  | arrive (e : Engine) (item : Except Error Signal) :
      Move e ({ e with dispatcher := e.dispatcher.receive item }.note (.arrived item))
  | endSignals (e : Engine) :
      Move e { e with dispatcher := { e.dispatcher with ended := true } }
  | takeCommand {e : Engine} {r : Dispatcher × List Reply}
      (hr : e.dispatcher.takeCommand? = some r) : Move e (e.dispatch r).noteCall
  | callReturn {e : Engine} {caller : CallerId} {request : JobRequest}
      {result : Except Error String} {r : Dispatcher × List Reply}
      (hs : e.dispatcher.stage = .calling caller request)
      (hr : e.dispatcher.called? result = some r) :
      Move e ((e.note (.jobReturned caller result)).dispatch r)
  | takeSignal {e : Engine} {item : Except Error Signal} {rest : List (Except Error Signal)}
      {r : Dispatcher × List Reply} (hi : e.dispatcher.signals = item :: rest)
      (hr : e.dispatcher.takeSignal? = some r) : Move e ((e.note (.tookSignal item)).dispatch r)
  | stop {e : Engine} (hs : e.dispatcher.mayStop e.reachable = true) :
      Move e ((e.note .stopped).dispatch e.dispatcher.stop)

/-- A move between engines that are alike the given ones. -/
def Moves (e e' : Engine) : Prop := ∃ e₁ e₂, Alike e e₁ ∧ Move e₁ e₂ ∧ Alike e₂ e'

variable {e e' e'' : Engine}

theorem Move.moves (h : Move e e') : Moves e e' := ⟨e, e', .refl e, h, .refl e'⟩

theorem Alike.moves (h : Alike e e') : Moves e e' := ⟨e, e, .refl e, .rest e, h⟩

theorem Moves.alike (h : Moves e e') (h' : Alike e' e'') : Moves e e'' := by
  obtain ⟨e₁, e₂, h₁, hm, h₂⟩ := h
  exact ⟨e₁, e₂, h₁, hm, h₂.trans h'⟩

theorem Alike.andMoves (h : Alike e e') (h' : Moves e' e'') : Moves e e'' := by
  obtain ⟨e₁, e₂, h₁, hm, h₂⟩ := h'
  exact ⟨e₁, e₂, h.trans h₁, hm, h₂⟩

theorem alike_conclude {id : CallerId} {op : Registry.Operation} {finish : Finish}
    (h : e.callers.get? id = some (.operation op finish)) (result : Except Error Unit) :
    Alike (e.settle (.caller id) result)
      ((e.note (.operated op result)).conclude id op finish result) := by
  have hn : Alike e (e.note (.operated op result)) := alike_note rfl
  cases result with
  | error err =>
    have hs : e.settle (.caller id) (.error err) = e.answer id (.done (.error err)) := by
      cases finish <;> simp [settle, h]
    rw [hs]
    exact (hn.trans (alike_abandon op.newcomer?)).answer id _
  | ok u =>
    cases finish with
    | answer =>
      simp only [settle, h, conclude]
      exact hn.answer id _
    | watch =>
      simp only [settle, h, conclude]
      cases op.newcomer? with
      | none => exact hn.answer id _
      | some feed => exact (hn.answer id _).trans (alike_startWatch feed)
    | undo next cause =>
      simp only [settle, h, conclude]
      cases op.newcomer? with
      | none => exact (hn.await id _).trans (alike_enlist _)
      | some feed =>
        exact ((hn.trans (alike_setWatch feed .over)).await id _).trans (alike_enlist _)
    | fail cause =>
      simp only [settle, h, conclude]
      exact hn.answer id _

theorem alike_finish (task : Task) (result : Except Error Unit) :
    Alike (e.settle task result) (e.finish task result) := by
  cases task with
  | caller id =>
    simp only [finish]
    split
    · rename_i op f h
      exact alike_conclude h result
    · rename_i hn
      have hs : e.settle (.caller id) result = e := by
        simp only [settle]
      rw [hs]
      exact .refl e
  | watcher feed =>
    simp only [settle, finish]
    split
    · exact (alike_note rfl).trans (alike_setWatch feed .over)
    · exact .refl e
  | dispatcher => exact .refl e
  | poller id => exact .refl e

theorem alike_proceed (task : Task) (p : Registry × Registry.Progress) :
    Alike (e.book task p) (e.proceed task p) := by
  obtain ⟨r, progress⟩ := p
  cases progress with
  | done result => exact alike_finish task result
  | ask call pause => exact .refl _

theorem Intends.closeFeed {task : Task} {op : Registry.Operation} (h : e.Intends task op)
    (feed : FeedId) : (e.closeFeed feed).Intends task op := by
  cases task with
  | caller id => exact h
  | watcher f =>
    obtain ⟨o, ho, hop⟩ := h
    simp only [Intends, Engine.closeFeed, note, Table.get?_modify]
    by_cases hf : f = feed
    · subst hf
      exact ⟨{ o with feed := o.feed.close }, by simp [ho], hop⟩
    · exact ⟨o, by simp [hf, ho], hop⟩
  | dispatcher => exact h
  | poller id => exact h

theorem moves_operate {task : Task} {op : Registry.Operation} (hh : e.holder = none)
    (hi : e.Intends task op) : Moves e (e.operate task op) := by
  unfold operate
  cases hc : e.registry.closes op with
  | none => exact (Move.operate hh hi).moves.alike (alike_proceed _ _)
  | some feed =>
    have hm : Move (e.closeFeed feed) _ := .operate hh (hi.closeFeed feed)
    exact (alike_closeFeed feed).andMoves (hm.moves.alike (alike_proceed _ _))

theorem moves_enter (hh : e.holder = none) (task : Task) : Moves e (e.enter task) := by
  cases task with
  | caller id =>
    simp only [enter]
    split
    · rename_i q hq
      refine (Move.serve hq (.inr ⟨q, rfl⟩) fun result ha => ?_).moves
      cases q <;> simp [respond] at ha
    · rename_i op finish hop
      exact moves_operate hh ⟨finish, hop⟩
    · exact (Alike.refl e).moves
  | watcher feed =>
    simp only [enter]
    split
    · rename_i o ho
      exact moves_operate hh ⟨o, ho, rfl⟩
    · exact (Alike.refl e).moves
  | dispatcher =>
    simp only [enter]
    split
    · rename_i parcel hp
      refine ((alike_setDispatcher ?_).trans (alike_note rfl)).moves
      simp [Dispatcher.desk, Dispatcher.hasStopped, Stage.call?, hp]
    · exact (Alike.refl e).moves
  | poller id =>
    simp only [enter]
    split
    · split
      · rename_i p' _
        exact (alike_putPoller id p').moves
      · exact (Alike.refl e).moves
    · exact (Alike.refl e).moves

theorem moves_refuse (e : Engine) {a : Answer} (ha : ∀ out, a ≠ .job (.ok out))
    (hd : ∀ context, a = .job (.error (.disconnected context)) →
      e.dispatcher.hasStopped = true) :
    Moves e ({ e with fresh := e.fresh + 1 }.note (.answered e.fresh a)) :=
  (Move.refuse e ha hd).moves

theorem moves_submit {request : JobRequest} {limit : Option (Nat × Error)}
    (hl : ∀ time err, limit = some (time, err) → ∃ d, err = .jobTimeout request.unit d) :
    Moves e ({ e with fresh := e.fresh + 1 }.submit e.fresh request limit) := by
  simp only [submit]
  cases hs : e.dispatcher.hasStopped with
  | true => exact moves_refuse e (by simp) fun _ _ => hs
  | false => exact (Move.submit hs hl).moves

theorem moves_submitWithin (request : JobRequest) (d : Duration) (ago : Nat) (looks : Bool) :
    Moves e ({ e with fresh := e.fresh + 1 }.submitWithin e.fresh request d ago looks) := by
  obtain ⟨err, hn, h⟩ | ⟨deadline, h⟩ :=
    submitWithin_cases { e with fresh := e.fresh + 1 } e.fresh request d ago looks
  · rw [h]
    exact moves_refuse e (by simp) (by simp [hn])
  · rw [h]
    refine moves_submit fun time err hl => ?_
    cases hl
    exact ⟨d, rfl⟩

theorem moves_operateLater {op : Registry.Operation} {finish : Finish}
    (h : (Wait.operation op finish).Suits e.fresh) :
    Moves e ({ e with fresh := e.fresh + 1 }.operateLater e.fresh op finish) :=
  (Move.enrol h).moves.alike (alike_enlist _)

theorem moves_queryLater (q : Query) :
    Moves e ({ e with fresh := e.fresh + 1 }.queryLater e.fresh q) :=
  (Move.enrol (w := .query q) trivial).moves.alike (alike_enlist _)

theorem moves_operateOn (unit : String) {op : String → Registry.Operation}
    (h : ∀ unit, (op unit).newcomer? = none) :
    Moves e ({ e with fresh := e.fresh + 1 }.operateOn e.fresh unit op) := by
  simp only [operateOn]
  split
  · exact moves_operateLater ⟨by simp [h], by simp⟩
  · exact moves_refuse e (by simp) (by simp [NameFault.toError])

theorem suits_finishFor {op ending : Registry.Operation} {id : CallerId} (refusal : Option String)
    (hop : ∀ feed, op.newcomer? = some feed → feed = id) (he : ending.newcomer? = none) :
    (Wait.operation op (finishFor ending refusal)).Suits id := by
  refine ⟨hop, fun next cause hn => ?_⟩
  cases refusal with
  | none => cases hn
  | some cause' =>
    cases hn
    exact he

theorem moves_attach (s : SetId) (values faults : Nat) (refusal : Option String) :
    Moves e ({ e with fresh := e.fresh + 1 }.call e.fresh (.attach s values faults refusal)) := by
  have hw : (Wait.operation (.attach s e.fresh)
      (finishFor (.detach s (some e.fresh) false) refusal)).Suits e.fresh :=
    suits_finishFor refusal (fun feed h => by cases h; rfl) rfl
  have ha := alike_openFeed (e := ({ e with fresh := e.fresh + 1 }.await e.fresh
    (.operation (.attach s e.fresh) (finishFor (.detach s (some e.fresh) false) refusal))))
    e.fresh values faults (.detach s (some e.fresh) false) rfl
  exact (Move.enrol hw).moves.alike (ha.trans (alike_enlist _))

theorem moves_subscribe (unit : String) (values : Nat) (refusal : Option String) :
    Moves e ({ e with fresh := e.fresh + 1 }.call e.fresh (.subscribe unit values refusal)) := by
  simp only [call]
  split
  · rename_i unit' _
    have hw : (Wait.operation (.subscribe e.fresh unit')
        (finishFor (.unsubscribe e.fresh) refusal)).Suits e.fresh :=
      suits_finishFor refusal (fun feed h => by cases h; rfl) rfl
    have ha := alike_openFeed (e := ({ e with fresh := e.fresh + 1 }.await e.fresh
      (.operation (.subscribe e.fresh unit') (finishFor (.unsubscribe e.fresh) refusal))))
      e.fresh values 0 (.unsubscribe e.fresh) rfl
    exact (Move.enrol hw).moves.alike (ha.trans (alike_enlist _))
  · have ha := alike_openFeed (e := e) e.fresh values 0 (.unsubscribe e.fresh) rfl
    exact (ha.trans (alike_abandon (some e.fresh))).andMoves (moves_refuse _ (by simp) (by simp))

theorem moves_call (call : Call) :
    Moves e ({ e with fresh := e.fresh + 1 }.call e.fresh call) := by
  cases call with
  | submit request limit =>
    cases limit with
    | none => exact moves_submit (by simp)
    | some d => exact moves_submitWithin request d 0 false
  | submitLate request d ago looks => exact moves_submitWithin request d ago looks
  | job kind unit mode =>
    simp only [Engine.call]
    split
    · exact moves_submit (by simp)
    · exact moves_refuse e (by simp) (by simp [NameFault.toError])
  | pendingJobs =>
    simp only [Engine.call]
    cases hs : e.dispatcher.hasStopped with
    | true => exact moves_refuse e (by simp) (by simp)
    | false => exact (Move.count hs).moves
  | listUnits => exact (Move.enrol (w := .listing) trivial).moves.alike (alike_note rfl)
  | add s unit => exact moves_operateOn unit fun _ => rfl
  | remove s unit => exact moves_operateOn unit fun _ => rfl
  | contains s unit =>
    simp only [Engine.call]
    split
    · exact moves_queryLater _
    · exact moves_refuse e (by simp) (by simp)
  | members s => exact moves_queryLater _
  | attach s values faults refusal => exact moves_attach s values faults refusal
  | close s =>
    have hw : (Wait.operation (.detach s none true) .answer).Suits e.fresh :=
      ⟨by simp [Registry.Operation.newcomer?], by simp⟩
    have hs (x : Engine) : Alike x { x with sets := x.sets.filter (· != s) } :=
      ⟨rfl, rfl, rfl, rfl, rfl, rfl, fun h => h⟩
    exact (Move.enrol hw).moves.alike ((hs _).trans (alike_enlist _))
  | subscribe unit values refusal => exact moves_subscribe unit values refusal
  | references unit =>
    simp only [Engine.call]
    split
    · exact moves_queryLater _
    · exact moves_refuse e (by simp) (by simp)

theorem moves_of_reaction {event : Event} (h : e.Reaction event e') : Moves e e' := by
  cases h with
  | call h => exact moves_call _
  | expire hw ht => exact (Move.expire hw).moves
  | leave h => exact Alike.moves ⟨rfl, rfl, rfl, rfl, rfl, rfl, fun h => h⟩
  | poll h => exact (Move.number e).moves.alike (alike_putPoller _ _)
  | openSet h =>
    exact (Move.number e).moves.alike ⟨rfl, rfl, rfl, rfl, rfl, rfl, fun h => h⟩
  | dropSet s => exact Alike.moves ⟨rfl, rfl, rfl, rfl, rfl, rfl, fun h => h⟩
  | dropHandle => exact Alike.moves ⟨rfl, rfl, rfl, rfl, rfl, rfl, fun h => h⟩
  | cancel h => exact (alike_cancel h).moves
  | takeFeed h => exact (alike_onFeed h).moves
  | takePoller h => exact (alike_onPoller h).moves
  | hangUpFeed h => exact (alike_onFeed h).moves
  | hangUpPoller h => exact (alike_onPoller h).moves
  | tick passed shown => exact Alike.moves ⟨rfl, rfl, rfl, rfl, rfl, rfl, fun h => h⟩
  | signal h => exact (Move.arrive e _).moves
  | endSignals => exact (Move.endSignals e).moves
  | jobReturned hs hr => exact (Move.callReturn hs hr).moves
  | matchReturned answer h => exact (Move.resume answer h).moves.alike (alike_proceed _ _)
  | listed result hw => exact (Move.serve hw (.inl rfl) (by simp)).moves
  | polled h => exact ((alike_note rfl).trans (alike_stepPoller h)).moves
  | @grant task hh hq =>
    have ha : Alike e { e with queue := e.queue.erase task } :=
      ⟨rfl, rfl, rfl, rfl, rfl, rfl, fun h => h⟩
    exact ha.andMoves (moves_enter (e := { e with queue := e.queue.erase task }) hh task)
  | arm => exact (alike_setDispatcher (desk_arm _)).moves
  | takeCommand hr => exact (Move.takeCommand hr).moves
  | takeSignal hi hr => exact (Move.takeSignal hi hr).moves.alike alike_askTargets
  | deliver hs => exact (alike_deliver hs).moves
  | look h => exact (alike_look h).moves
  | unblock h => exact (alike_unblock h).moves
  | stop h => exact (Move.stop h).moves
  | unblockPoller h => exact (alike_stepPoller h).moves
  | wakePoller h => exact (alike_stepPoller h).moves

/-- It is all alike whether the dispatcher is startled after a reaction. -/
theorem reaction_alike_of_step {event : Event} (h : e.step event = some e') :
    ∃ x, e.Reaction event x ∧ Alike x e' := by
  obtain ⟨x, hr, rfl | rfl⟩ := reaction_of_step h
  · exact ⟨_, hr, .refl _⟩
  · exact ⟨x, hr, alike_setDispatcher (desk_startle _)⟩

theorem moves_of_step {event : Event} (h : e.step event = some e') : Moves e e' := by
  obtain ⟨x, hr, hx⟩ := reaction_alike_of_step h
  exact (moves_of_reaction hr).alike hx

/-- The engines to which moves lead. To prove something about all of them is to prove it of a new
engine, of engines alike, and of what a move makes of an engine for which more is known already. -/
inductive Attained : Engine → Prop
  | start (capacity : Nat) (timer : Timer) : Attained (start capacity timer)
  | alike {e e' : Engine} (h : Attained e) (ha : Alike e e') : Attained e'
  | move {e e' : Engine} (h : Attained e) (hm : Move e e') : Attained e'

theorem Attained.moves (h : e.Attained) (hm : Moves e e') : e'.Attained := by
  obtain ⟨e₁, e₂, h₁, hm, h₂⟩ := hm
  exact ((h.alike h₁).move hm).alike h₂

theorem Attained.run (h : e.Attained) {events : List Event} (hr : e.run events = some e') :
    e'.Attained :=
  run_keeps (fun h hs => h.moves (moves_of_step hs)) h hr

theorem Reachable.attained (h : e.Reachable) : e.Attained := by
  obtain ⟨capacity, timer, events, hr⟩ := h
  exact (Attained.start capacity timer).run hr

end Engine

end UnitControl
