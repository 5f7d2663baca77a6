import UnitControl.Proofs.Engine.Answers
import Mathlib.Data.List.Count

/-!
# What passes the dispatcher by

Most of what happens leaves the dispatcher where it is, with its table of pending jobs, and leaves
the feeds as they are, but that some may be closed. The dispatcher itself takes its turns in a few
events only, and consumers are the only others that do something to a feed.
-/

namespace UnitControl

/-- The events in which neither the dispatcher gets anything done nor a consumer comes to a feed. -/
def Event.isAside : Event → Bool
  | .take (.feed _) _ | .hangUp (.feed _) _ | .jobReturned _ | .grant .dispatcher | .takeCommand
  | .takeSignal | .deliver | .look | .unblock | .stop => false
  | _ => true

theorem Feed.close_close {α : Type} (f : Feed α) : f.close.close = f.close := rfl

namespace Engine

/-- What holds from an engine to a later one whatever the end of an operation does in between. It
does nothing but what is named here. -/
structure KeptByConclusions (R : Engine → Engine → Prop) : Prop where
  refl : ∀ e, R e e
  trans : ∀ {e e' e''}, R e e' → R e' e'' → R e e''
  answer : ∀ e id a, R e (e.answer id a)
  await : ∀ e id w, R e (e.await id w)
  enlist : ∀ e {task}, task ≠ .dispatcher → R e (e.enlist task)
  setWatch : ∀ e feed w, R e (e.setWatch feed w)
  closeFeed : ∀ e feed, R e (e.closeFeed feed)

/-- What holds from an engine to a later one whatever an operation does in between. -/
structure KeptByOperations (R : Engine → Engine → Prop) : Prop extends KeptByConclusions R where
  register : ∀ e r, R e { e with registry := r }
  hold : ∀ e holder, R e { e with holder := some holder }
  operated : ∀ e op result, R e (e.note (.operated op result))
  asked : ∀ e call, R e (e.note (.asked (.matchRule call)))

section

variable {R : Engine → Engine → Prop}

namespace KeptByConclusions

theorem abandon (hR : KeptByConclusions R) (e : Engine) (feed : Option FeedId) :
    R e (e.abandon feed) := by
  cases feed with
  | none => exact hR.refl e
  | some f => exact hR.trans (hR.setWatch e f .over) (hR.closeFeed _ f)

theorem startWatch (hR : KeptByConclusions R) (e : Engine) (feed : FeedId) :
    R e (e.startWatch feed) := by
  unfold Engine.startWatch
  split
  · exact hR.trans (hR.setWatch e feed _) (hR.enlist _ (by simp))
  · exact hR.setWatch e feed _
  · exact hR.refl e

theorem conclude (hR : KeptByConclusions R) (e : Engine) (id : CallerId) (op : Registry.Operation)
    (finish : Finish) (result : Except Error Unit) : R e (e.conclude id op finish result) := by
  have hundo (x : Engine) (next : Registry.Operation) (cause : String) : R x ((x.await id
      (.operation next (.fail (.noRuntime "unitlink-cancel" cause)))).enlist (.caller id)) :=
    hR.trans (hR.await x id _) (hR.enlist _ (by simp))
  cases result with
  | error err => exact hR.trans (hR.abandon e _) (hR.answer _ _ _)
  | ok u =>
    cases finish with
    | answer => exact hR.answer e _ _
    | watch =>
      simp only [Engine.conclude]
      cases op.newcomer? with
      | none => exact hR.answer e _ _
      | some feed => exact hR.trans (hR.answer e _ _) (hR.startWatch _ feed)
    | undo next cause =>
      simp only [Engine.conclude]
      cases op.newcomer? with
      | none => exact hundo e next cause
      | some feed => exact hR.trans (hR.setWatch e feed .over) (hundo _ next cause)
    | fail cause => exact hR.answer e _ _

end KeptByConclusions

namespace KeptByOperations

theorem finish (hR : KeptByOperations R) (e : Engine) (task : Task)
    (result : Except Error Unit) : R e (e.finish task result) := by
  unfold Engine.finish
  split
  · split
    · exact hR.trans (hR.operated e _ _) (hR.conclude _ _ _ _ _)
    · exact hR.refl e
  · split
    · exact hR.trans (hR.operated e _ _) (hR.setWatch _ _ _)
    · exact hR.refl e
  · exact hR.refl e
  · exact hR.refl e

theorem proceed (hR : KeptByOperations R) (e : Engine) (task : Task)
    (p : Registry × Registry.Progress) : R e (e.proceed task p) := by
  obtain ⟨r, progress⟩ := p
  have hr := hR.register e r
  cases progress with
  | done result => exact hR.trans hr (hR.finish _ task result)
  | ask call pause => exact hR.trans hr (hR.trans (hR.hold _ ⟨task, call, pause⟩) (hR.asked _ _))

theorem operate (hR : KeptByOperations R) (e : Engine) (task : Task) (op : Registry.Operation) :
    R e (e.operate task op) := by
  unfold Engine.operate
  cases e.registry.closes op with
  | none => exact hR.proceed e task _
  | some feed => exact hR.trans (hR.closeFeed e feed) (hR.proceed _ task _)

end KeptByOperations

end

/-- The dispatcher and the feeds are passed by, but for a feed with a new number. -/
structure PassesBy (new : FeedId) (e e' : Engine) : Prop where
  stage : e'.dispatcher.stage = e.dispatcher.stage
  pending : e'.dispatcher.pending = e.dispatcher.pending
  commands : e.dispatcher.commands <+: e'.dispatcher.commands
  turns : e'.queue.count .dispatcher = e.queue.count .dispatcher
  feeds : ∀ feed o, feed ≠ new → e.outlets.get? feed = some o →
    ∃ o', e'.outlets.get? feed = some o' ∧ o'.ending = o.ending ∧
      (o'.feed = o.feed ∨ o'.feed = o.feed.close)

namespace PassesBy

variable {new : FeedId} {e e' e'' : Engine}

theorem of_eq (hd : e'.dispatcher = e.dispatcher) (hq : e'.queue = e.queue)
    (ho : e'.outlets = e.outlets) : PassesBy new e e' where
  stage := by rw [hd]
  pending := by rw [hd]
  commands := hd ▸ List.prefix_rfl
  turns := by rw [hq]
  feeds _ o _ h := ⟨o, ho ▸ h, rfl, .inl rfl⟩

theorem refl (e : Engine) : PassesBy new e e := of_eq rfl rfl rfl

theorem trans (h : PassesBy new e e') (h' : PassesBy new e' e'') : PassesBy new e e'' where
  stage := h'.stage.trans h.stage
  pending := h'.pending.trans h.pending
  commands := h.commands.trans h'.commands
  turns := h'.turns.trans h.turns
  feeds feed o hn ho := by
    obtain ⟨o', ho', he, hf⟩ := h.feeds feed o hn ho
    obtain ⟨o'', ho'', he', hf'⟩ := h'.feeds feed o' hn ho'
    refine ⟨o'', ho'', he'.trans he, ?_⟩
    rcases hf with hf | hf <;> rcases hf' with hf' | hf' <;> simp [hf, hf', Feed.close_close]

theorem note (e : Engine) (entry : Entry) : PassesBy new e (e.note entry) := of_eq rfl rfl rfl

theorem await (e : Engine) (id : CallerId) (w : Wait) : PassesBy new e (e.await id w) :=
  of_eq rfl rfl rfl

theorem answer (e : Engine) (id : CallerId) (a : Answer) : PassesBy new e (e.answer id a) :=
  of_eq (dispatcher_answer e id a) (queue_answer e id a) (outlets_answer e id a)

theorem enlist (e : Engine) {task : Task} (h : task ≠ .dispatcher) :
    PassesBy new e (e.enlist task) where
  stage := rfl
  pending := rfl
  commands := List.prefix_rfl
  turns := by simp [Engine.enlist, List.count_append, h]
  feeds _ o _ ho := ⟨o, ho, rfl, .inl rfl⟩

theorem modifyOutlet (e : Engine) (feed : FeedId) {f : Outlet → Outlet}
    (he : ∀ o, (f o).ending = o.ending)
    (hf : ∀ o, (f o).feed = o.feed ∨ (f o).feed = o.feed.close) :
    PassesBy new e { e with outlets := e.outlets.modify feed f } where
  stage := rfl
  pending := rfl
  commands := List.prefix_rfl
  turns := rfl
  feeds g o _ ho := by
    have hg := e.outlets.get?_modify feed f g
    split at hg
    · exact ⟨f o, by rw [hg, ho]; rfl, he o, hf o⟩
    · exact ⟨o, hg.trans ho, rfl, .inl rfl⟩

theorem setWatch (e : Engine) (feed : FeedId) (w : Watch) : PassesBy new e (e.setWatch feed w) :=
  modifyOutlet e feed (fun _ => rfl) fun _ => .inl rfl

theorem closeFeed (e : Engine) (feed : FeedId) : PassesBy new e (e.closeFeed feed) := by
  have h : PassesBy new e _ :=
    modifyOutlet e feed (f := fun o => { o with feed := o.feed.close }) (fun _ => rfl)
      fun _ => .inr rfl
  exact h.trans (note _ _)

theorem keptByOperations (new : FeedId) : KeptByOperations (PassesBy new) where
  refl := refl
  trans := trans
  register _ _ := of_eq rfl rfl rfl
  hold _ _ := of_eq rfl rfl rfl
  operated e _ _ := note e _
  asked e _ := note e _
  answer := answer
  await := await
  enlist := enlist
  setWatch := setWatch
  closeFeed := closeFeed

theorem enter (e : Engine) {task : Task} (h : task ≠ .dispatcher) :
    PassesBy new e (e.enter task) := by
  cases task with
  | caller id =>
    simp only [Engine.enter]
    split
    · exact answer e _ _
    · exact (keptByOperations new).operate e _ _
    · exact refl e
  | watcher feed =>
    simp only [Engine.enter]
    split
    · exact (keptByOperations new).operate e _ _
    · exact refl e
  | dispatcher => exact absurd rfl h
  | poller id =>
    simp only [Engine.enter]
    split
    · split
      · exact of_eq rfl rfl rfl
      · exact refl e
    · exact refl e

theorem erase (e : Engine) {task : Task} (h : task ≠ .dispatcher) :
    PassesBy new e { e with queue := e.queue.erase task } where
  stage := rfl
  pending := rfl
  commands := List.prefix_rfl
  turns := List.count_erase_of_ne h.symm
  feeds _ o _ ho := ⟨o, ho, rfl, .inl rfl⟩

theorem afterPoll (e : Engine) (id : PollerId) (p : Poller) :
    PassesBy new e (e.afterPoll id p) := by
  have hp : PassesBy new e (e.putPoller id p) := of_eq rfl rfl rfl
  unfold Engine.afterPoll
  dsimp only
  split
  · exact hp.trans (note _ _)
  · split
    · exact hp.trans (enlist _ (by simp))
    · exact hp

theorem stepPoller {id : PollerId} {event : Poller.Event} (h : e.stepPoller? id event = some e') :
    PassesBy new e e' := by
  unfold stepPoller? at h
  split at h
  · obtain ⟨p, -, rfl⟩ := Option.map_eq_some_iff.1 h
    exact afterPoll e id p
  · cases h

theorem onPoller {id : PollerId} {event : Poller.Event} (h : e.onPoller? id event = some e') :
    PassesBy new e e' := by
  unfold onPoller? at h
  split at h
  · obtain ⟨p, -, rfl⟩ := Option.map_eq_some_iff.1 h
    exact of_eq rfl rfl rfl
  · cases h

theorem cancel {feed : FeedId} (h : e.cancel? feed = some e') : PassesBy new e e' := by
  unfold cancel? at h
  split at h
  · cases h
    exact setWatch e feed _
  · cases h
    exact (setWatch e feed _).trans (enlist _ (by simp))
  · cases h

theorem send (e : Engine) (c : Command) : PassesBy new e (e.send c) where
  stage := rfl
  pending := rfl
  commands := List.prefix_append _ _
  turns := rfl
  feeds _ o _ ho := ⟨o, ho, rfl, .inl rfl⟩

theorem submit (e : Engine) (id : CallerId) (request : JobRequest)
    (limit : Option (Nat × Error)) : PassesBy new e (e.submit id request limit) := by
  unfold Engine.submit
  split
  · exact note e _
  · exact (await e id _).trans (send _ _)

theorem submitWithin (e : Engine) (id : CallerId) (request : JobRequest) (d : Duration)
    (ago : Nat) (looks : Bool) : PassesBy new e (e.submitWithin id request d ago looks) := by
  obtain ⟨err, -, h⟩ | ⟨deadline, h⟩ := submitWithin_cases e id request d ago looks
  · rw [h]
    exact note e _
  · rw [h]
    exact submit e id request _

theorem operateLater (e : Engine) (id : CallerId) (op : Registry.Operation) (finish : Finish) :
    PassesBy new e (e.operateLater id op finish) :=
  (await e id _).trans (enlist _ (by simp))

theorem queryLater (e : Engine) (id : CallerId) (q : Query) : PassesBy new e (e.queryLater id q) :=
  (await e id _).trans (enlist _ (by simp))

theorem operateOn (e : Engine) (id : CallerId) (unit : String) (op : String → Registry.Operation) :
    PassesBy new e (e.operateOn id unit op) := by
  unfold Engine.operateOn
  split
  · exact operateLater e id _ _
  · exact note e _

theorem openFeed (e : Engine) (new : FeedId) (values faults : Nat) (ending : Registry.Operation) :
    PassesBy new e (e.openFeed new values faults ending) where
  stage := rfl
  pending := rfl
  commands := List.prefix_rfl
  turns := rfl
  feeds feed o hn ho := by
    refine ⟨o, ?_, rfl, .inl rfl⟩
    simp only [Engine.openFeed, Table.get?_put]
    rwa [if_neg hn]

theorem call (e : Engine) (id : CallerId) (call : Call) : PassesBy id e (e.call id call) := by
  cases call with
  | submit request limit =>
    cases limit with
    | none => exact submit e id request none
    | some d => exact submitWithin e id request d 0 false
  | submitLate request d ago looks => exact submitWithin e id request d ago looks
  | job kind unit mode =>
    simp only [Engine.call]
    split
    · exact submit e id _ none
    · exact note e _
  | pendingJobs =>
    simp only [Engine.call]
    split
    · exact note e _
    · exact (await e id _).trans (send _ _)
  | listUnits => exact (await e id _).trans (note _ _)
  | add s unit => exact operateOn e id unit _
  | remove s unit => exact operateOn e id unit _
  | contains s unit =>
    simp only [Engine.call]
    split
    · exact queryLater e id _
    · exact note e _
  | members s => exact queryLater e id _
  | attach s values faults refusal =>
    exact (openFeed e id values faults _).trans (operateLater _ id _ _)
  | close s =>
    have hs : PassesBy id e { e with sets := e.sets.filter (· != s) } := of_eq rfl rfl rfl
    exact hs.trans (operateLater _ id _ _)
  | subscribe unit values refusal =>
    have ho := openFeed e id values 0 (.unsubscribe id)
    simp only [Engine.call]
    split
    · exact ho.trans (operateLater _ id _ _)
    · exact (ho.trans ((keptByOperations id).abandon _ _)).trans (note _ _)
  | references unit =>
    simp only [Engine.call]
    split
    · exact queryLater e id _
    · exact note e _

end PassesBy

variable {e e' : Engine} {event : Event}

theorem passesBy_of_reaction (h : e.Reaction event e') (ha : event.isAside = true) :
    PassesBy e.fresh e e' := by
  have hnumber : PassesBy e.fresh e { e with fresh := e.fresh + 1 } := .of_eq rfl rfl rfl
  cases h with
  | call h =>
    exact hnumber.trans (.call { e with fresh := e.fresh + 1 } e.fresh _)
  | expire hw ht => exact .answer e _ _
  | leave h => exact .of_eq rfl rfl rfl
  | poll h => exact .of_eq rfl rfl rfl
  | openSet h => exact .of_eq rfl rfl rfl
  | dropSet s => exact .of_eq rfl rfl rfl
  | dropHandle => exact .of_eq rfl rfl rfl
  | cancel h => exact .cancel h
  | takePoller h => exact .onPoller h
  | hangUpPoller h => exact .onPoller h
  | tick passed shown => exact .of_eq rfl rfl rfl
  | @signal item h =>
    obtain ⟨signals, hd⟩ := e.dispatcher.receive_eq item
    rw [hd]
    exact ⟨rfl, rfl, List.prefix_rfl, rfl, fun _ o _ ho => ⟨o, ho, rfl, .inl rfl⟩⟩
  | endSignals => exact ⟨rfl, rfl, List.prefix_rfl, rfl, fun _ o _ ho => ⟨o, ho, rfl, .inl rfl⟩⟩
  | @matchReturned holder answer h =>
    have hx : PassesBy e.fresh e
        ({ e with holder := none }.note (.matchReturned holder.call answer)) := .of_eq rfl rfl rfl
    exact hx.trans ((PassesBy.keptByOperations _).proceed _ _ _)
  | listed result hw => exact .answer e _ _
  | polled h => exact (PassesBy.note e _).trans (.stepPoller h)
  | @grant task hh hq =>
    have ht : task ≠ .dispatcher := by
      rintro rfl
      cases ha
    exact (PassesBy.erase e ht).trans (.enter _ ht)
  | arm => exact ⟨rfl, rfl, List.prefix_rfl, rfl, fun _ o _ ho => ⟨o, ho, rfl, .inl rfl⟩⟩
  | unblockPoller h => exact .stepPoller h
  | wakePoller h => exact .stepPoller h
  | _ => cases ha

end Engine

end UnitControl
