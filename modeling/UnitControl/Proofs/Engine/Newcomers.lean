import UnitControl.Proofs.Engine.Places

/-!
# Subscriptions that are being made

A subscription whose task has not been started is being made by the caller with its number, which
starts the task or ends the subscription when it is through.
-/

namespace UnitControl

/-- What a task of a subscription does that has been waited for. -/
def Watch.started : Watch → Watch
  | expected true => ending
  | expected false => watching
  | w => w

theorem Watch.started_ne_expected (w : Watch) (cancelled : Bool) :
    w.started ≠ .expected cancelled := by
  cases w with
  | expected c => cases c <;> simp [started]
  | _ => simp [started]

namespace Engine

/-- The caller is to bring the feed with its number into the registry, and then to have it watched
or to take it out again. -/
def Brings (e : Engine) (feed : FeedId) : Prop :=
  ∃ op finish, e.callers.get? feed = some (.operation op finish) ∧ op.newcomer? = some feed ∧
    (finish = .watch ∨ ∃ next cause, finish = .undo next cause)

/-- The task of a subscription is expected only by the caller that makes the subscription. -/
def Introduced (e : Engine) : Prop :=
  ∀ feed cancelled, e.watch? feed = some (.expected cancelled) → e.Brings feed

variable {e e' : Engine} {id : CallerId} {feed : FeedId} {task : Task}

theorem Brings.not_bringsNone (h : e.Brings feed) : ¬e.BringsNone feed := by
  obtain ⟨op, finish, hw, hn, -⟩ := h
  intro hb
  cases hn.symm.trans (hb op finish hw)

theorem Brings.wants (h : e.Brings feed) : e.wants (.caller feed) = true := by
  obtain ⟨op, finish, hw, -⟩ := h
  exact wants_of_operates ⟨op, finish, hw⟩

theorem bringsNone_of_not_wants (h : e.wants (.caller id) = false) : e.BringsNone id := by
  intro op finish hw
  rw [wants_of_operates ⟨op, finish, hw⟩] at h
  cases h

theorem watch?_closeFeed (e : Engine) (feed f : FeedId) :
    (e.closeFeed feed).watch? f = e.watch? f := (Abreast.closeFeed e feed).watch f

theorem watch?_abandon (e : Engine) (feed : Option FeedId) (f : FeedId) :
    (e.abandon feed).watch? f =
      if feed = some f then (e.watch? f).map fun _ => .over else e.watch? f := by
  cases feed with
  | none => rfl
  | some g =>
    refine (watch?_closeFeed _ g f).trans ((watch?_setWatch e g .over f).trans ?_)
    by_cases hf : f = g
    · simp [hf]
    · simp [hf, Ne.symm hf]

theorem watch?_startWatch (e : Engine) (feed f : FeedId) :
    (e.startWatch feed).watch? f =
      if f = feed then (e.watch? f).map Watch.started else e.watch? f := by
  have hset (w : Watch) := watch?_setWatch e feed w f
  have hwatch : (e.outlets.get? feed).map Outlet.watch = e.watch? feed := rfl
  unfold startWatch
  rw [hwatch]
  by_cases hf : f = feed
  · subst hf
    simp only [if_pos] at hset ⊢
    split
    · rename_i he
      exact (hset .ending).trans (by rw [he]; rfl)
    · rename_i he
      exact (hset .watching).trans (by rw [he]; rfl)
    · rename_i hn₁ hn₂
      cases hw : e.watch? f with
      | none => rfl
      | some w =>
        cases w with
        | expected c => cases c <;> simp_all
        | _ => rfl
  · simp only [if_neg hf] at hset ⊢
    split
    · exact hset .ending
    · exact hset .watching
    · rfl

/-- After the end of an operation, only those subscriptions are still expected to be watched that
were so before and that others make. -/
theorem watch?_of_conclude {op : Registry.Operation} {finish : Finish} {result : Except Error Unit}
    {cancelled : Bool} (hid : ∀ cancelled, e.watch? id = some (.expected cancelled) →
      op.newcomer? = some id ∧ (finish = .watch ∨ ∃ next cause, finish = .undo next cause))
    (h : (e.conclude id op finish result).watch? feed = some (.expected cancelled)) :
    feed ≠ id ∧ e.watch? feed = some (.expected cancelled) := by
  have hother (hw : e.watch? feed = some (.expected cancelled)) (hn : op.newcomer? ≠ some feed) :
      feed ≠ id ∧ e.watch? feed = some (.expected cancelled) := by
    refine ⟨?_, hw⟩
    rintro rfl
    exact hn (hid cancelled hw).1
  have hanswer (a : Answer) (hf : ¬(finish = .watch ∨ ∃ next cause, finish = .undo next cause))
      (hw : (e.answer id a).watch? feed = some (.expected cancelled)) :
      feed ≠ id ∧ e.watch? feed = some (.expected cancelled) := by
    rw [watch?_answer] at hw
    refine ⟨?_, hw⟩
    rintro rfl
    exact hf (hid cancelled hw).2
  cases result with
  | error err =>
    simp only [conclude, watch?_answer, watch?_abandon] at h
    split at h
    · cases hw : e.watch? feed <;> simp [hw] at h
    · exact hother h ‹_›
  | ok u =>
    cases finish with
    | answer => exact hanswer _ (by simp) h
    | watch =>
      simp only [conclude] at h
      cases hn : op.newcomer? with
      | none =>
        rw [hn] at h hother
        exact hother (by rwa [watch?_answer] at h) (by simp)
      | some f =>
        rw [hn] at h hother
        simp only [watch?_startWatch, watch?_answer] at h
        split at h
        · obtain ⟨w, -, hw⟩ := Option.map_eq_some_iff.1 h
          exact absurd hw (w.started_ne_expected cancelled)
        · exact hother h fun he => ‹¬feed = f› (Option.some.inj he).symm
    | undo next cause =>
      simp only [conclude] at h
      cases hn : op.newcomer? with
      | none =>
        rw [hn] at h hother
        exact hother h (by simp)
      | some f =>
        rw [hn] at h hother
        have h : (e.setWatch f .over).watch? feed = some (.expected cancelled) := h
        rw [watch?_setWatch] at h
        split at h
        · cases hw : e.watch? feed <;> simp [hw] at h
        · exact hother h fun he => ‹¬feed = f› (Option.some.inj he).symm
    | fail cause => exact hanswer _ (by simp) h

theorem get?_callers_settle (h : task ≠ .caller id) (result : Except Error Unit) :
    (e.settle task result).callers.get? id = e.callers.get? id := by
  obtain ⟨-, hs⟩ | ⟨c, op, finish, rfl, -, ⟨next, cause, -, hs⟩ | ⟨outcome, hs⟩⟩ :=
    settle_cases e task result
  · rw [hs]
  · rw [hs, get?_callers_await, if_neg]
    rintro rfl
    exact h rfl
  · rw [hs, get?_callers_answer, if_neg]
    rintro rfl
    exact h rfl

namespace Introduced

theorem carry (h : e.Introduced)
    (hw : ∀ feed cancelled, e'.watch? feed = some (.expected cancelled) →
      e'.Brings feed ∨ e'.callers.get? feed = e.callers.get? feed ∧
        ∃ c, e.watch? feed = some (.expected c)) : e'.Introduced := by
  intro feed cancelled hwatch
  obtain hb | ⟨hc, c, he⟩ := hw feed cancelled hwatch
  · exact hb
  · obtain ⟨op, finish, hop, hn, hf⟩ := h feed c he
    exact ⟨op, finish, hc.trans hop, hn, hf⟩

theorem of_eq (h : e.Introduced) (hc : e'.callers = e.callers)
    (hw : ∀ feed, e'.watch? feed = e.watch? feed) : e'.Introduced :=
  h.carry fun feed c he => .inr ⟨by rw [hc], c, (hw feed).symm.trans he⟩

theorem abreast (h : e.Introduced) (ha : Abreast e e') : e'.Introduced :=
  h.of_eq ha.callers ha.watch

theorem answer (h : e.Introduced) (hb : e.BringsNone id) (a : Answer) :
    (e.answer id a).Introduced := by
  refine h.carry fun feed c he => .inr ?_
  rw [watch?_answer] at he
  refine ⟨?_, c, he⟩
  rw [get?_callers_answer, if_neg]
  rintro rfl
  exact (h feed c he).not_bringsNone hb

theorem dispatch (h : e.Introduced) {r : Dispatcher × List Reply}
    (hr : ∀ reply ∈ r.2, e.wants (.caller reply.1) = false) : (e.dispatch r).Introduced := by
  have hd : { e with dispatcher := r.1 }.Introduced := h.abreast (.setDispatcher e r.1)
  refine (answerAll_induct (I := fun x => x.Introduced ∧
    ∀ reply ∈ r.2, x.wants (.caller reply.1) = false) ⟨hd, hr⟩ fun x reply hm hx => ?_).1
  refine ⟨hx.1.answer (bringsNone_of_not_wants (hx.2 reply hm)) _, fun reply' hm' => ?_⟩
  rw [wants_answer, hx.2 reply' hm', Bool.false_and]

theorem await (h : e.Introduced) (hb : e.BringsNone id) (w : Wait) : (e.await id w).Introduced := by
  refine h.carry fun feed c he => .inr ⟨?_, c, he⟩
  rw [get?_callers_await, if_neg]
  rintro rfl
  exact (h feed c he).not_bringsNone hb

theorem setWatch (h : e.Introduced) {w : Watch}
    (hw : ∀ c, w = .expected c → ∃ c', e.watch? feed = some (.expected c')) :
    (e.setWatch feed w).Introduced := by
  refine h.carry fun f c he => .inr ⟨rfl, ?_⟩
  rw [watch?_setWatch] at he
  split at he
  · rename_i hf
    subst hf
    obtain ⟨_, -, rfl⟩ := Option.map_eq_some_iff.1 he
    exact hw c rfl
  · exact ⟨c, he⟩

theorem finish (h : e.Introduced) (task : Task) (result : Except Error Unit) :
    (e.finish task result).Introduced := by
  cases task with
  | caller id =>
    cases hw : e.callers.get? id with
    | none =>
      simp only [Engine.finish, hw]
      exact h
    | some w =>
      cases w with
      | operation op finish =>
        refine h.carry fun feed c he => .inr ?_
        have hbrings (c : Bool) (hc : e.watch? id = some (.expected c)) :
            op.newcomer? = some id ∧
              (finish = .watch ∨ ∃ next cause, finish = .undo next cause) := by
          obtain ⟨op', finish', hw', hn, hf⟩ := h id c hc
          cases hw.symm.trans hw'
          exact ⟨hn, hf⟩
        have hcallers := (alike_finish (e := e) (.caller id) result).callers
        simp only [Engine.finish, hw] at he
        obtain ⟨hne, hwatch⟩ :=
          watch?_of_conclude (e := e.note (.operated op result)) hbrings he
        refine ⟨?_, c, hwatch⟩
        rw [hcallers, get?_callers_settle]
        rintro ⟨⟩
        exact hne rfl
      | _ =>
        simp only [Engine.finish, hw]
        exact h
  | watcher feed =>
    simp only [Engine.finish]
    split
    · exact (h.abreast (.note e _)).setWatch fun c hc => by cases hc
    · exact h
  | dispatcher => exact h
  | poller id => exact h

theorem proceed (h : e.Introduced) (task : Task) (p : Registry × Registry.Progress) :
    (e.proceed task p).Introduced := by
  obtain ⟨r, progress⟩ := p
  have hr : { e with registry := r }.Introduced := h.abreast (.register e r)
  cases progress with
  | done result => exact hr.finish task result
  | ask call pause => exact h.of_eq rfl fun _ => rfl

theorem operate (h : e.Introduced) (task : Task) (op : Registry.Operation) :
    (e.operate task op).Introduced := by
  unfold Engine.operate
  cases e.registry.closes op with
  | none => exact h.proceed task _
  | some feed => exact (h.abreast (.closeFeed e feed)).proceed task _

theorem enter (h : e.Introduced) (task : Task) : (e.enter task).Introduced := by
  cases task with
  | caller id =>
    simp only [Engine.enter]
    split
    · rename_i q hq
      refine h.answer (fun op finish hw => ?_) _
      cases hq.symm.trans hw
    · exact h.operate _ _
    · exact h
  | watcher feed =>
    simp only [Engine.enter]
    split
    · exact h.operate _ _
    · exact h
  | dispatcher =>
    simp only [Engine.enter]
    split
    · exact h.of_eq rfl fun _ => rfl
    · exact h
  | poller id =>
    simp only [Engine.enter]
    split
    · split
      · exact h.of_eq rfl fun _ => rfl
      · exact h
    · exact h

theorem afterPoll (h : e.Introduced) (id : PollerId) (p : Poller) :
    (e.afterPoll id p).Introduced := by
  unfold Engine.afterPoll
  dsimp only
  split
  · exact h.of_eq rfl fun _ => rfl
  · split <;> exact h.of_eq rfl fun _ => rfl

theorem stepPoller {id : PollerId} {event : Poller.Event} (h : e.Introduced)
    (hs : e.stepPoller? id event = some e') : e'.Introduced := by
  unfold stepPoller? at hs
  split at hs
  · obtain ⟨p, -, rfl⟩ := Option.map_eq_some_iff.1 hs
    exact h.afterPoll id p
  · cases hs

theorem onPoller {id : PollerId} {event : Poller.Event} (h : e.Introduced)
    (hs : e.onPoller? id event = some e') : e'.Introduced := by
  unfold onPoller? at hs
  split at hs
  · obtain ⟨p, -, rfl⟩ := Option.map_eq_some_iff.1 hs
    exact h.of_eq rfl fun _ => rfl
  · cases hs

theorem askTargets (h : e.Introduced) : e.askTargets.Introduced := by
  unfold Engine.askTargets
  split
  · exact h.of_eq rfl fun _ => rfl
  · exact h

theorem operateLater (h : e.Introduced) (hb : e.BringsNone id) (op : Registry.Operation)
    (finish : Finish) : (e.operateLater id op finish).Introduced :=
  (h.await hb _).of_eq rfl fun _ => rfl

theorem queryLater (h : e.Introduced) (hb : e.BringsNone id) (q : Query) :
    (e.queryLater id q).Introduced :=
  (h.await hb _).of_eq rfl fun _ => rfl

theorem operateOn (h : e.Introduced) (hb : e.BringsNone id) (unit : String)
    (op : String → Registry.Operation) : (e.operateOn id unit op).Introduced := by
  unfold Engine.operateOn
  split
  · exact h.operateLater hb _ _
  · exact h.abreast (.note e _)

theorem watch?_openFeed_of_ne (h : feed ≠ id) (values faults : Nat)
    (ending : Registry.Operation) :
    (e.openFeed id values faults ending).watch? feed = e.watch? feed := by
  simp only [watch?, Engine.openFeed, Table.get?_put, if_neg h]

theorem bring (h : e.Introduced) {op ending : Registry.Operation} (hn : op.newcomer? = some id)
    (values faults : Nat) (refusal : Option String) :
    ((e.openFeed id values faults ending).operateLater id op
      (finishFor ending refusal)).Introduced := by
  refine h.carry fun feed c he => ?_
  by_cases hf : feed = id
  · subst hf
    refine .inl ⟨op, finishFor ending refusal, Table.get?_put_self _ _ _, hn, ?_⟩
    cases refusal with
    | none => exact .inl rfl
    | some cause => exact .inr ⟨_, _, rfl⟩
  · have hopen := watch?_openFeed_of_ne (e := e) hf values faults ending
    exact .inr ⟨(e.callers.get?_put id _ feed).trans (if_neg hf), c, hopen.symm.trans he⟩

theorem submit (h : e.Introduced) (hb : e.BringsNone id) (request : JobRequest)
    (limit : Option (Nat × Error)) : (e.submit id request limit).Introduced := by
  unfold Engine.submit
  split
  · exact h.abreast (.note e _)
  · exact (h.await hb _).abreast (.send _ _)

theorem submitWithin (h : e.Introduced) (hb : e.BringsNone id) (request : JobRequest)
    (d : Duration) (ago : Nat) (looks : Bool) :
    (e.submitWithin id request d ago looks).Introduced := by
  obtain ⟨err, -, hs⟩ | ⟨deadline, hs⟩ := submitWithin_cases e id request d ago looks
  · rw [hs]
    exact h.abreast (.note e _)
  · rw [hs]
    exact h.submit hb _ _

theorem call (h : e.Introduced) (hb : e.BringsNone id) (call : Call) :
    (e.call id call).Introduced := by
  cases call with
  | submit request limit =>
    cases limit with
    | none => exact h.submit hb _ _
    | some d => exact h.submitWithin hb request d 0 false
  | submitLate request d ago looks => exact h.submitWithin hb request d ago looks
  | job kind unit mode =>
    simp only [Engine.call]
    split
    · exact h.submit hb _ _
    · exact h.abreast (.note e _)
  | pendingJobs =>
    simp only [Engine.call]
    split
    · exact h.abreast (.note e _)
    · exact (h.await hb _).abreast (.send _ _)
  | listUnits => exact (h.await hb _).abreast (.note _ _)
  | add s unit => exact h.operateOn hb _ _
  | remove s unit => exact h.operateOn hb _ _
  | contains s unit =>
    simp only [Engine.call]
    split
    · exact h.queryLater hb _
    · exact h.abreast (.note e _)
  | members s => exact h.queryLater hb _
  | attach s values faults refusal => exact h.bring rfl _ _ _
  | close s =>
    have hs : { e with sets := e.sets.filter (· != s) }.Introduced := h.of_eq rfl fun _ => rfl
    exact hs.operateLater hb _ _
  | subscribe unit values refusal =>
    simp only [Engine.call]
    split
    · exact h.bring rfl _ _ _
    · let x := e.openFeed id values 0 (.unsubscribe id)
      refine h.carry fun feed c he => .inr ?_
      have hcallers : (x.abandon (some id)).callers = e.callers := (alike_abandon (some id)).callers
      have he : (x.abandon (some id)).watch? feed = some (.expected c) := he
      rw [watch?_abandon] at he
      split at he
      · obtain ⟨_, -, hx⟩ := Option.map_eq_some_iff.1 he
        cases hx
      · rename_i hf
        rw [watch?_openFeed_of_ne fun hfeed => hf (by rw [hfeed])] at he
        exact ⟨congrArg (Table.get? · feed) hcallers, c, he⟩
  | references unit =>
    simp only [Engine.call]
    split
    · exact h.queryLater hb _
    · exact h.abreast (.note e _)

theorem cancel (h : e.Introduced) (hs : e.cancel? feed = some e') : e'.Introduced := by
  unfold cancel? at hs
  split at hs
  · rename_i he
    cases hs
    exact h.setWatch fun _ _ => ⟨false, he⟩
  · cases hs
    exact (h.setWatch (w := .ending) fun c hc => by cases hc).of_eq rfl fun _ => rfl
  · cases hs

theorem start (capacity : Nat) (timer : Timer) : (Engine.start capacity timer).Introduced :=
  fun _ _ h => by cases h

theorem startle (h : e.Introduced) : { e with dispatcher := e.dispatcher.startle }.Introduced :=
  h.abreast (.setDispatcher e _)

theorem reaction (ho : e.Orderly) (h : e.Introduced) {event : Event}
    (hr : e.Reaction event e') : e'.Introduced := by
  have hnote (entry : Entry) : (e.note entry).Introduced := h.abreast (.note e entry)
  cases hr with
  | call hp =>
    have hn : { e with fresh := e.fresh + 1 }.Introduced := h.abreast (.number e)
    exact hn.call (bringsNone_of_none ho.callers_fresh) _
  | expire hw ht =>
    refine h.answer (bringsNone_of_not_wants ?_) _
    simp [wants, hw, Wait.isForRegistry]
  | cancel hc => exact h.cancel hc
  | takeFeed hf => exact h.abreast (.onFeed hf)
  | takePoller hp => exact h.onPoller hp
  | hangUpFeed hf => exact h.abreast (.onFeed hf)
  | hangUpPoller hp => exact h.onPoller hp
  | signal hs => exact (h.abreast (.setDispatcher e _)).abreast (.note _ _)
  | @jobReturned c request result r hs hr =>
    exact (hnote (.jobReturned c result)).dispatch
      fun _ => ho.not_wants_of_reply (Dispatcher.conserves_called hs hr)
  | @matchReturned holder answer hh =>
    have hn : ({ e with holder := none }.note (.matchReturned holder.call answer)).Introduced :=
      h.of_eq rfl fun _ => rfl
    exact hn.proceed _ _
  | listed result hw =>
    refine h.answer (bringsNone_of_not_wants ?_) _
    simp [wants, hw, Wait.isForRegistry]
  | @polled id result e' hp => exact (hnote (.listed id result)).stepPoller hp
  | @grant task hh hq =>
    have hleft : { e with queue := e.queue.erase task }.Introduced := h.of_eq rfl fun _ => rfl
    exact hleft.enter task
  | takeCommand hr =>
    exact (h.dispatch fun _ =>
      ho.not_wants_of_reply (Dispatcher.conserves_takeCommand hr)).abreast (.noteCall _)
  | @takeSignal item rest r hi hr =>
    exact ((hnote (.tookSignal item)).dispatch fun _ =>
      ho.not_wants_of_reply (Dispatcher.conserves_takeSignal hi hr)).askTargets
  | deliver hs => exact h.abreast (.deliver e _ _)
  | look hl => exact h.abreast (.look hl)
  | unblock hu => exact h.abreast (.unblock hu)
  | stop hm =>
    exact (hnote .stopped).dispatch fun _ =>
      ho.not_wants_of_reply (Dispatcher.conserves_stop (Dispatcher.stage_of_mayStop hm))
  | unblockPoller hp => exact h.stepPoller hp
  | wakePoller hp => exact h.stepPoller hp
  | _ => exact h.of_eq rfl fun _ => rfl

theorem run (hatt : e.Attained) (h : e.Introduced) {events : List Event}
    (hr : e.run events = some e') : e'.Introduced :=
  (run_keeps (P := fun x => x.Attained ∧ x.Introduced)
    (fun ⟨hatt, h⟩ hs => ⟨hatt.moves (moves_of_step hs),
      of_step hs (fun _ hreaction => h.reaction hatt.orderly hreaction) fun _ => startle⟩)
    ⟨hatt, h⟩ hr).2

end Introduced

theorem Reachable.introduced (h : e.Reachable) : e.Introduced := by
  obtain ⟨capacity, timer, events, hr⟩ := h
  exact (Introduced.start capacity timer).run (.start capacity timer) hr

end Engine

end UnitControl
