import UnitControl.Engine.Step

/-!
# What an event makes of an engine

An event is possible under a condition of its own, and then there is one engine that it leads to.
-/

namespace UnitControl

/-- The caller finds that its time is over before it has sent its request. -/
def Call.isLate (clock : Clock) : Call → Bool
  | submitLate _ d ago looks => looks && clock.isOver ago d
  | _ => false

namespace Engine

/-- A caller with a limit is turned away at once, for a limit that is no wait or is over, or does as
one without a limit. -/
theorem submitWithin_cases (e : Engine) (id : CallerId) (request : JobRequest) (d : Duration)
    (ago : Nat) (looks : Bool) :
    (∃ err, (∀ context, err ≠ .disconnected context) ∧
      e.submitWithin id request d ago looks = e.note (.answered id (.job (.error err)))) ∨
    ∃ deadline, e.submitWithin id request d ago looks =
      e.submit id request (some (deadline, .jobTimeout request.unit d)) := by
  simp only [submitWithin]
  split
  · exact .inl ⟨_, by simp, rfl⟩
  · split
    · exact .inl ⟨_, by simp, rfl⟩
    · exact .inr ⟨_, rfl⟩

/-- The event is possible, and leads to this engine. -/
inductive Reaction (e : Engine) : Event → Engine → Prop
  | call {call : Call} (h : e.permits call = true) :
      Reaction e (.call call) ({ e with fresh := e.fresh + 1 }.call e.fresh call)
  | expire {id : CallerId} {time : Nat} {err : Error}
      (hw : e.callers.get? id = some (.job (some (time, err)))) (ht : time ≤ e.clock.now) :
      Reaction e (.expire id) (e.answer id (.job (.error err)))
  | leave {id : CallerId} (h : e.leaving.contains id = true) :
      Reaction e (.leave id) { e with leaving := e.leaving.erase id }
  | poll {interval : Duration} {capacity : Nat} {isChanged : UnitStatus → UnitStatus → Bool}
      {scope : Scope} (h : e.permitsPoll scope = true) :
      Reaction e (.poll interval capacity isChanged scope)
        ({ e with fresh := e.fresh + 1 }.putPoller e.fresh
          (.start interval capacity isChanged scope))
  | openSet (h : e.handle = true) :
      Reaction e .openSet { e with fresh := e.fresh + 1, sets := e.sets ++ [e.fresh] }
  | dropSet (s : SetId) : Reaction e (.dropSet s) { e with sets := e.sets.filter (· != s) }
  | dropHandle : Reaction e .dropHandle { e with handle := false, sets := [] }
  | cancel {feed : FeedId} {e' : Engine} (h : e.cancel? feed = some e') :
      Reaction e (.cancel feed) e'
  | takeFeed {feed : FeedId} {lane : Lane} {e' : Engine}
      (h : e.onFeed? feed lane (·.take? lane) = some e') :
      Reaction e (.take (.feed feed) lane) e'
  | takePoller {id : PollerId} {lane : Lane} {e' : Engine}
      (h : e.onPoller? id (.take lane) = some e') : Reaction e (.take (.poller id) lane) e'
  | hangUpFeed {feed : FeedId} {lane : Lane} {e' : Engine}
      (h : e.onFeed? feed lane (fun f => some (f.hangUp lane)) = some e') :
      Reaction e (.hangUp (.feed feed) lane) e'
  | hangUpPoller {id : PollerId} {lane : Lane} {e' : Engine}
      (h : e.onPoller? id (.hangUp lane) = some e') : Reaction e (.hangUp (.poller id) lane) e'
  | tick (passed shown : Nat) :
      Reaction e (.tick passed shown) { e with clock := e.clock.pass passed shown }
  | signal {item : Except Error Signal} (h : e.dispatcher.ended = false) :
      Reaction e (.signal item)
        ({ e with dispatcher := e.dispatcher.receive item }.note (.arrived item))
  | endSignals :
      Reaction e .endSignals { e with dispatcher := { e.dispatcher with ended := true } }
  | jobReturned {c : CallerId} {request : JobRequest} {result : Except Error String}
      {r : Dispatcher × List Reply} (hs : e.dispatcher.stage = .calling c request)
      (hr : e.dispatcher.called? result = some r) :
      Reaction e (.jobReturned result) ((e.note (.jobReturned c result)).dispatch r)
  | matchReturned {holder : Holder} (answer : Except Error Unit) (h : e.holder = some holder) :
      Reaction e (.matchReturned answer)
        (({ e with holder := none }.note (.matchReturned holder.call answer)).proceed holder.task
          (e.registry.resume answer holder.pause))
  | listed {id : CallerId} (result : Except Error (List UnitStatus))
      (hw : e.callers.get? id = some .listing) :
      Reaction e (.listReturned (.caller id) result) (e.answer id (.listing result))
  | polled {id : PollerId} {result : Except Error (List UnitStatus)} {e' : Engine}
      (h : (e.note (.listed id result)).stepPoller? id (.listed e.clock result) = some e') :
      Reaction e (.listReturned (.poller id) result) e'
  | grant {task : Task} (hh : e.holder = none) (hq : e.queue.contains task = true) :
      Reaction e (.grant task) ({ e with queue := e.queue.erase task }.enter task)
  | arm (hi : e.dispatcher.isIdle = true) (hc : e.dispatcher.commands = []) :
      Reaction e .arm { e with dispatcher := e.dispatcher.arm }
  | takeCommand {r : Dispatcher × List Reply} (hr : e.dispatcher.takeCommand? = some r) :
      Reaction e .takeCommand (e.dispatch r).noteCall
  | takeSignal {item : Except Error Signal} {rest : List (Except Error Signal)}
      {r : Dispatcher × List Reply} (hi : e.dispatcher.signals = item :: rest)
      (hr : e.dispatcher.takeSignal? = some r) :
      Reaction e .takeSignal ((e.note (.tookSignal item)).dispatch r).askTargets
  | deliver {parcel : Parcel Update} {targets : List FeedId}
      (hs : e.dispatcher.stage = .sending parcel targets) :
      Reaction e .deliver (e.deliver parcel targets)
  | look {e' : Engine} (h : e.look? = some e') : Reaction e .look e'
  | unblock {e' : Engine} (h : e.unblock? = some e') : Reaction e .unblock e'
  | stop (h : e.dispatcher.mayStop e.reachable = true) :
      Reaction e .stop ((e.note .stopped).dispatch e.dispatcher.stop)
  | unblockPoller {id : PollerId} {e' : Engine}
      (h : e.stepPoller? id (.unblock e.clock) = some e') : Reaction e (.unblockPoller id) e'
  | wakePoller {id : PollerId} {e' : Engine} (h : e.stepPoller? id (.wake e.clock) = some e') :
      Reaction e (.wakePoller id) e'

variable {e e' : Engine}

theorem reaction_of_react {event : Event} (h : e.react event = some e') : e.Reaction event e' := by
  cases event with
  | call call =>
    simp only [react] at h
    split at h
    · cases h
      exact .call ‹_›
    · cases h
  | expire id =>
    simp only [react, expire?] at h
    split at h
    · split at h
      · cases h
        exact .expire ‹_› ‹_›
      · cases h
    · cases h
  | leave id =>
    simp only [react] at h
    split at h
    · cases h
      exact .leave ‹_›
    · cases h
  | poll interval capacity isChanged scope =>
    simp only [react] at h
    split at h
    · cases h
      exact .poll ‹_›
    · cases h
  | openSet =>
    simp only [react] at h
    split at h
    · cases h
      exact .openSet ‹_›
    · cases h
  | dropSet s =>
    cases h
    exact .dropSet s
  | dropHandle =>
    cases h
    exact .dropHandle
  | cancel feed => exact .cancel h
  | take source lane =>
    cases source with
    | feed feed => exact .takeFeed h
    | poller id => exact .takePoller h
  | hangUp source lane =>
    cases source with
    | feed feed => exact .hangUpFeed h
    | poller id => exact .hangUpPoller h
  | tick passed shown =>
    cases h
    exact .tick passed shown
  | signal item =>
    simp only [react] at h
    split at h
    · cases h
    · rename_i hend
      cases h
      exact .signal (Bool.not_eq_true _ ▸ hend)
  | endSignals =>
    cases h
    exact .endSignals
  | jobReturned result =>
    simp only [react, jobReturned?] at h
    split at h
    · obtain ⟨r, hr, rfl⟩ := Option.map_eq_some_iff.1 h
      exact .jobReturned ‹_› hr
    · cases h
  | matchReturned answer =>
    simp only [react, matchReturned?] at h
    split at h
    · cases h
      exact .matchReturned answer ‹_›
    · cases h
  | listReturned task result =>
    cases task with
    | caller id =>
      simp only [react, listReturned?] at h
      split at h
      · cases h
        exact .listed result ‹_›
      · cases h
    | poller id => exact .polled h
    | watcher feed => cases h
    | dispatcher => cases h
  | grant task =>
    simp only [react, grant?] at h
    split at h
    · rename_i hg
      cases h
      simp only [Bool.and_eq_true, Option.isNone_iff_eq_none] at hg
      exact .grant hg.1 hg.2
    · cases h
  | arm =>
    obtain ⟨ha, h⟩ := Option.ite_none_right_eq_some.1 h
    cases h
    obtain ⟨hi, hc⟩ := Bool.and_eq_true_iff.1 ha
    exact .arm hi (List.isEmpty_iff.1 hc)
  | takeCommand =>
    obtain ⟨r, hr, rfl⟩ := Option.map_eq_some_iff.1 h
    exact .takeCommand hr
  | takeSignal =>
    simp only [react, takeSignal?] at h
    split at h
    · obtain ⟨r, hr, rfl⟩ := Option.map_eq_some_iff.1 h
      exact .takeSignal ‹_› hr
    · cases h
  | deliver =>
    simp only [react, deliver?] at h
    split at h
    · cases h
      exact .deliver ‹_›
    · cases h
  | look => exact .look h
  | unblock => exact .unblock h
  | stop =>
    simp only [react] at h
    split at h
    · cases h
      exact .stop ‹_›
    · cases h
  | unblockPoller id => exact .unblockPoller h
  | wakePoller id => exact .wakePoller h

/-- A step is a reaction, but for the dispatcher that may be startled. -/
theorem reaction_of_step {event : Event} (h : e.step event = some e') :
    ∃ e₁, e.Reaction event e₁ ∧
      (e' = e₁ ∨ e' = { e₁ with dispatcher := e₁.dispatcher.startle }) := by
  obtain ⟨e₁, h₁, rfl⟩ := Option.map_eq_some_iff.1 h
  refine ⟨e₁, reaction_of_react h₁, ?_⟩
  split
  · exact .inr rfl
  · exact .inl rfl

theorem exists_step_of_react {event : Event} {x : Engine} (h : e.react event = some x) :
    ∃ d, e.step event = some { x with dispatcher := d } := by
  rw [step, h, Option.map_some]
  cases e.startles x with
  | true => exact ⟨_, rfl⟩
  | false => exact ⟨x.dispatcher, rfl⟩

/-- What holds after the reaction holds after the step, if it is all the same whether the dispatcher
is startled. -/
@[elab_as_elim] theorem of_step {P : Engine → Prop} {event : Event} (h : e.step event = some e')
    (hreaction : ∀ x, e.Reaction event x → P x)
    (hstartle : ∀ x, P x → P { x with dispatcher := x.dispatcher.startle }) : P e' := by
  obtain ⟨x, hr, rfl | rfl⟩ := reaction_of_step h
  · exact hreaction _ hr
  · exact hstartle x (hreaction x hr)

end Engine

end UnitControl
