import UnitControl.Proofs.Engine.Fate
import UnitControl.Proofs.Engine.Places
import UnitControl.Proofs.Engine.Rules

/-!
# While a task has the registry

A task that waits for the bus keeps the registry whatever else happens, and nobody else changes
anything in it. So between the grant and the end of the operation the registry goes the way of the
operation, and its caller is told the result.
-/

namespace UnitControl.Engine

open Registry

variable {e e' e'' : Engine} {id : CallerId} {event : Event}

/-- After these events, and not before, the registry is free. -/
inductive UntilFree : Engine → List Event → Engine → Prop
  | free {e : Engine} (h : e.holder = none) : UntilFree e [] e
  | wait {e e₁ e' : Engine} {event : Event} {rest : List Event} (h : e.holder ≠ none)
      (hs : e.step event = some e₁) (hr : UntilFree e₁ rest e') : UntilFree e (event :: rest) e'

/-- The registry and who has it are the same, the bus has not answered, and every operation still
has its caller. -/
structure Retains (e e' : Engine) : Prop where
  holder : e'.holder = e.holder
  registry : e'.registry = e.registry
  log : e'.matchLog = e.matchLog
  operations : ∀ id op finish, e.callers.get? id = some (.operation op finish) →
    e'.callers.get? id = some (.operation op finish)

namespace Retains

theorem of_eq (hh : e'.holder = e.holder) (hr : e'.registry = e.registry)
    (hj : e'.journal = e.journal) (hc : e'.callers = e.callers) : Retains e e' :=
  ⟨hh, hr, by rw [matchLog, matchLog, hj], fun _ _ _ h => hc ▸ h⟩

theorem trans (h : Retains e e') (h' : Retains e' e'') : Retains e e'' where
  holder := h'.holder.trans h.holder
  registry := h'.registry.trans h.registry
  log := h'.log.trans h.log
  operations id op finish hw := h'.operations id op finish (h.operations id op finish hw)

theorem alike (h : Alike e e') : Retains e e' :=
  ⟨h.holder, h.registry, matchLog_alike h, fun _ _ _ hw => h.callers ▸ hw⟩

theorem note {entry : Entry} (h : entry.matchReturned? = none) (e : Engine) :
    Retains e (e.note entry) :=
  ⟨rfl, rfl, by simp [matchLog, Engine.note, h], fun _ _ _ => id⟩

theorem answerOther (h : ∀ op finish, e.callers.get? id ≠ some (.operation op finish))
    (a : Answer) : Retains e (e.answer id a) where
  holder := holder_answer e id a
  registry := registry_answer e id a
  log := by
    obtain ⟨l, hr, hl⟩ := record_answer_append e id a
    refine matchLog_append hr fun entry hm => ?_
    rw [hl entry hm]
    rfl
  operations c op finish hw := by
    rw [get?_callers_answer, if_neg]
    · exact hw
    · rintro rfl
      exact h op finish hw

theorem answer (h : e.wants (.caller id) = false) (a : Answer) : Retains e (e.answer id a) := by
  refine answerOther (fun op finish hw => ?_) a
  rw [wants_of_operates ⟨op, finish, hw⟩] at h
  cases h

theorem dispatch {r : Dispatcher × List Reply}
    (h : ∀ reply ∈ r.2, e.wants (.caller reply.1) = false) : Retains e (e.dispatch r) := by
  have hd : Retains e { e with dispatcher := r.1 } := .of_eq rfl rfl rfl rfl
  refine (answerAll_induct (I := fun x => Retains e x ∧
    ∀ reply ∈ r.2, x.wants (.caller reply.1) = false) ⟨hd, h⟩ fun x reply hm hx => ?_).1
  refine ⟨hx.1.trans (answer (hx.2 reply hm) _), fun reply' hm' => ?_⟩
  rw [wants_answer, hx.2 reply' hm', Bool.false_and]

theorem await (h : e.callers.get? id = none) (w : Wait) : Retains e (e.await id w) where
  holder := rfl
  registry := rfl
  log := rfl
  operations c op finish hw := by
    rw [get?_callers_await, if_neg]
    · exact hw
    · rintro rfl
      cases h.symm.trans hw

theorem send (e : Engine) (command : Command) : Retains e (e.send command) := by
  have hd : Retains e { e with dispatcher := e.dispatcher.enqueue command } :=
    .of_eq rfl rfl rfl rfl
  exact hd.trans (note rfl _)

theorem noteCall (e : Engine) : Retains e e.noteCall := by
  unfold Engine.noteCall
  split
  · exact note rfl e
  · exact .of_eq rfl rfl rfl rfl

theorem submit (h : e.callers.get? id = none) (request : JobRequest)
    (limit : Option (Nat × Error)) : Retains e (e.submit id request limit) := by
  unfold Engine.submit
  split
  · exact note rfl e
  · exact (await h _).trans (send _ _)

theorem submitWithin (h : e.callers.get? id = none) (request : JobRequest) (d : Duration)
    (ago : Nat) (looks : Bool) : Retains e (e.submitWithin id request d ago looks) := by
  obtain ⟨err, -, hs⟩ | ⟨deadline, hs⟩ := submitWithin_cases e id request d ago looks
  · rw [hs]
    exact note rfl e
  · rw [hs]
    exact submit h _ _

theorem operateLater (h : e.callers.get? id = none) (op : Operation) (finish : Finish) :
    Retains e (e.operateLater id op finish) :=
  (await h _).trans (alike (alike_enlist _))

theorem queryLater (h : e.callers.get? id = none) (q : Query) : Retains e (e.queryLater id q) :=
  (await h _).trans (alike (alike_enlist _))

theorem operateOn (h : e.callers.get? id = none) (unit : String) (op : String → Operation) :
    Retains e (e.operateOn id unit op) := by
  unfold Engine.operateOn
  split
  · exact operateLater h _ _
  · exact note rfl e

theorem call (h : e.callers.get? id = none) (call : Call) : Retains e (e.call id call) := by
  cases call with
  | submit request limit =>
    cases limit with
    | none => exact submit h _ _
    | some d => exact submitWithin h request d 0 false
  | submitLate request d ago looks => exact submitWithin h request d ago looks
  | job kind unit mode =>
    simp only [Engine.call]
    split
    · exact submit h _ _
    · exact note rfl e
  | pendingJobs =>
    simp only [Engine.call]
    split
    · exact note rfl e
    · exact (await h _).trans (send _ _)
  | listUnits => exact (await h _).trans (note rfl _)
  | add s unit => exact operateOn h _ _
  | remove s unit => exact operateOn h _ _
  | contains s unit =>
    simp only [Engine.call]
    split
    · exact queryLater h _
    · exact note rfl e
  | members s => exact queryLater h _
  | attach s values faults refusal =>
    let x := e.openFeed id values faults (.detach s (some id) false)
    have hf : Retains e x := .of_eq rfl rfl rfl rfl
    exact hf.trans (operateLater (e := x) h _ _)
  | close s =>
    let x := { e with sets := e.sets.filter (· != s) }
    have hs : Retains e x := .of_eq rfl rfl rfl rfl
    exact hs.trans (operateLater (e := x) h _ _)
  | subscribe unit values refusal =>
    let x := e.openFeed id values 0 (.unsubscribe id)
    have hf : Retains e x := .of_eq rfl rfl rfl rfl
    simp only [Engine.call]
    split
    · exact hf.trans (operateLater (e := x) h _ _)
    · exact (hf.trans (alike (alike_abandon _))).trans (note rfl _)
  | references unit =>
    simp only [Engine.call]
    split
    · exact queryLater h _
    · exact note rfl e

end Retains

/-- Only a task that has the registry changes anything in it. -/
theorem retains_of_reaction (ho : e.Orderly) (hr : e.Reaction event e')
    (hm : ∀ answer, event ≠ .matchReturned answer) (hg : ∀ task, event ≠ .grant task) :
    Retains e e' := by
  cases hr with
  | call hp =>
    let x := { e with fresh := e.fresh + 1 }
    have hn : Retains e x := .of_eq rfl rfl rfl rfl
    exact hn.trans (Retains.call (e := x) ho.callers_fresh _)
  | expire hw ht => exact .answer (by simp [wants, hw, Wait.isForRegistry]) _
  | cancel hc => exact .alike (alike_cancel hc)
  | takeFeed hf => exact .alike (alike_onFeed hf)
  | takePoller hp => exact .alike (alike_onPoller hp)
  | hangUpFeed hf => exact .alike (alike_onFeed hf)
  | hangUpPoller hp => exact .alike (alike_onPoller hp)
  | @signal item hs =>
    have hd : Retains e { e with dispatcher := e.dispatcher.receive item } := .of_eq rfl rfl rfl rfl
    exact hd.trans (.note rfl _)
  | @jobReturned c request result r hs hr =>
    have hn : Retains e (e.note (.jobReturned c result)) := .note rfl e
    exact hn.trans (.dispatch fun _ => ho.not_wants_of_reply (Dispatcher.conserves_called hs hr))
  | matchReturned answer hh => exact absurd rfl (hm answer)
  | listed result hw => exact .answer (by simp [wants, hw, Wait.isForRegistry]) _
  | @polled id result e' hp =>
    have hn : Retains e (e.note (.listed id result)) := .note rfl e
    exact hn.trans (.alike (alike_stepPoller hp))
  | grant hfree hq => exact absurd rfl (hg _)
  | takeCommand hr =>
    exact Retains.trans (.dispatch fun _ =>
      ho.not_wants_of_reply (Dispatcher.conserves_takeCommand hr)) (.noteCall _)
  | @takeSignal item rest r hi hr =>
    have hn : Retains e (e.note (.tookSignal item)) := .note rfl e
    exact (hn.trans (.dispatch fun _ =>
      ho.not_wants_of_reply (Dispatcher.conserves_takeSignal hi hr))).trans
        (.alike alike_askTargets)
  | deliver hs => exact .alike (alike_deliver hs)
  | look hl => exact .alike (alike_look hl)
  | unblock hu => exact .alike (alike_unblock hu)
  | stop hs =>
    have hn : Retains e (e.note .stopped) := .note rfl e
    exact hn.trans (.dispatch fun _ =>
      ho.not_wants_of_reply (Dispatcher.conserves_stop (Dispatcher.stage_of_mayStop hs)))
  | unblockPoller hp => exact .alike (alike_stepPoller hp)
  | wakePoller hp => exact .alike (alike_stepPoller hp)
  | _ => exact .of_eq rfl rfl rfl rfl

/-- Only the answer of the bus ends the wait of the task that has the registry. -/
theorem retains_of_step (ho : e.Orderly) (hh : e.holder ≠ none) (hs : e.step event = some e')
    (hm : ∀ answer, event ≠ .matchReturned answer) : Retains e e' :=
  of_step hs
    (fun _ hr => retains_of_reaction ho hr hm fun task he => by
      subst he
      cases hr with
      | grant hfree hq => exact hh hfree)
    fun _ hx => hx.trans (.of_eq rfl rfl rfl rfl)

theorem Orderly.step (h : e.Orderly) (hs : e.step event = some e') : e'.Orderly := by
  obtain ⟨x, y, hx, hm, hy⟩ := moves_of_step hs
  exact ((h.alike hx).move hm).alike hy

/-- An operation that has come to `p` is over. The bus has since answered its calls as the log goes
on to tell, and its caller, if it waited for nothing but the end, was told the result. -/
def Concludes (e : Engine) (task : Task) (p : Registry × Progress) (e' : Engine) : Prop :=
  ∃ (log : MatchLog) (result : Except Error Unit), Registry.Completes p log e'.registry result ∧
    e'.matchLog = e.matchLog ++ log ∧
    ∀ id op, task = .caller id → e.callers.get? id = some (.operation op .answer) →
      Entry.answered id (.done result) ∈ e'.record

variable {task : Task} {call : MatchCall} {pause : Pause}

theorem UntilFree.eq_of_free {events : List Event} (h : UntilFree e events e')
    (hh : e.holder = none) : e' = e := by
  cases h with
  | free => rfl
  | wait hn => exact absurd hh hn

theorem concludes_of_done {result : Except Error Unit} {r : Registry}
    (ha : Alike (e.book task (r, .done result)) e') :
    Concludes e task (r, .done result) e' := by
  have hreg : e'.registry = r := ha.registry.trans (registry_settle _ _ _)
  refine ⟨[], result, hreg ▸ .done, ?_, fun id op ht hw => ?_⟩
  · rw [matchLog_alike ha, matchLog_book, List.append_nil]
  · have hs : { e with registry := r }.settle (.caller id) result =
        { e with registry := r }.answer id (.done result) := by
      cases result <;> simp [settle, hw]
    subst ht
    rw [ha.record]
    simp only [book, hs, record_answer_of_waits (e := { e with registry := r }) hw]
    exact List.mem_cons_self

namespace Concludes

/-- What happens before makes no difference as long as the bus has not answered and every operation
still has its caller. -/
theorem before {p : Registry × Progress} (h : Concludes e' task p e'')
    (hlog : e'.matchLog = e.matchLog)
    (hw : ∀ id op finish, e.callers.get? id = some (.operation op finish) →
      e'.callers.get? id = some (.operation op finish)) : Concludes e task p e'' := by
  obtain ⟨log, result, hc, hlog', hanswer⟩ := h
  exact ⟨log, result, hc, hlog ▸ hlog', fun id op ht hop => hanswer id op ht (hw id op .answer hop)⟩

theorem ask {answer : Except Error Unit}
    (h : Concludes ({ e with holder := none }.note (.matchReturned call answer)) task
      (e.registry.resume answer pause) e') :
    Concludes e task (e.registry, .ask call pause) e' := by
  obtain ⟨log, result, hc, hlog, hanswer⟩ := h
  refine ⟨(call, answer) :: log, result, .ask hc, ?_, hanswer⟩
  rw [hlog, matchLog_note_returned, List.append_assoc]
  rfl

end Concludes

theorem concludes_of_book {p : Registry × Progress} {events : List Event} (hfree : e.holder = none)
    (ha : Alike (e.book task p) e') (h : UntilFree e' events e'')
    (hwait : ∀ call pause, e'.holder = some ⟨task, call, pause⟩ →
      Concludes e' task (e'.registry, .ask call pause) e'') : Concludes e task p e'' := by
  obtain ⟨r, progress⟩ := p
  cases progress with
  | done result =>
    obtain rfl := h.eq_of_free (ha.holder.trans ((holder_settle _ _ _).trans hfree))
    exact concludes_of_done ha
  | ask call pause =>
    have hc := hwait call pause ha.holder
    rw [ha.registry] at hc
    refine hc.before ?_ fun _ _ _ hw => ha.callers ▸ hw
    rw [matchLog_alike ha, matchLog_book]

/-- By induction on what happens until the registry is free. The task keeps it until the bus
answers; then the operation is over, or the task waits for the bus again. -/
theorem concludes_of_holder (ho : e.Orderly) (hh : e.holder = some ⟨task, call, pause⟩)
    {events : List Event} (h : UntilFree e events e') :
    Concludes e task (e.registry, .ask call pause) e' := by
  induction h generalizing call pause with
  | free hfree => cases hh.symm.trans hfree
  | @wait e e₁ e' event rest hn hs hr ih =>
    have ho₁ := ho.step hs
    by_cases hevent : ∃ answer, event = .matchReturned answer
    · obtain ⟨answer, rfl⟩ := hevent
      obtain ⟨x, hreaction, hx⟩ := reaction_alike_of_step hs
      cases hreaction with
      | matchReturned _ hholder =>
        cases hh.symm.trans hholder
        exact .ask (concludes_of_book rfl ((alike_proceed _ _).trans hx) hr fun _ _ => ih ho₁)
    · have hk := retains_of_step ho hn hs fun answer he => hevent ⟨answer, he⟩
      have hc := ih ho₁ (hk.holder.trans hh)
      rw [hk.registry] at hc
      exact hc.before hk.log hk.operations

/-- An engine like the given one has the operation at its beginning when its task gets the
registry. -/
theorem book_of_grant {op : Operation} (hi : e.Intends task op)
    (hs : e.step (.grant task) = some e') :
    e.holder = none ∧ ∃ w, Alike e w ∧ Alike (w.book task (e.registry.begin op)) e' := by
  obtain ⟨x, hreaction, hx⟩ := reaction_alike_of_step hs
  cases hreaction with
  | grant hh hq =>
    let w := { e with queue := e.queue.erase task }
    have herase : Alike e w := ⟨rfl, rfl, rfl, rfl, rfl, rfl, fun h => h⟩
    have hiw : w.Intends task op := by cases task <;> exact hi
    refine ⟨hh, ?_⟩
    rw [enter_of_intends hiw, operate] at hx
    split at hx
    · exact ⟨_, herase.trans (alike_closeFeed _), (alike_proceed _ _).trans hx⟩
    · exact ⟨w, herase, (alike_proceed _ _).trans hx⟩

theorem exists_step_matchReturned {holder : Holder} (hh : e.holder = some holder)
    (answer : Except Error Unit) : ∃ e', e.step (.matchReturned answer) = some e' ∧
      Alike (({ e with holder := none }.note (.matchReturned holder.call answer)).book holder.task
        (e.registry.resume answer holder.pause)) e' := by
  obtain ⟨e', hs⟩ : ∃ e', e.step (.matchReturned answer) = some e' := by
    simp only [step, react, matchReturned?, hh, Option.map_some]
    exact ⟨_, rfl⟩
  obtain ⟨x, hreaction, hx⟩ := reaction_alike_of_step hs
  cases hreaction with
  | matchReturned _ hholder =>
    cases hh.symm.trans hholder
    exact ⟨e', hs, (alike_proceed _ _).trans hx⟩

theorem untilFree_of_completes {p : Registry × Progress} {log : MatchLog} {r : Registry}
    {result : Except Error Unit} (hc : Registry.Completes p log r result) (hfree : e.holder = none)
    (ha : Alike (e.book task p) e') :
    ∃ z, UntilFree e' (log.map fun p => .matchReturned p.2) z ∧ z.matchLog = e.matchLog ++ log := by
  induction hc generalizing e e' with
  | done =>
    refine ⟨e', .free (ha.holder.trans ((holder_settle _ _ _).trans hfree)), ?_⟩
    rw [matchLog_alike ha, matchLog_book, List.append_nil]
  | @ask r r' call pause answer result log _ ih =>
    have hh : e'.holder = some ⟨task, call, pause⟩ := ha.holder
    obtain ⟨x, hs, hx⟩ := exists_step_matchReturned hh answer
    have hreg : e'.registry = r := ha.registry
    rw [hreg] at hx
    obtain ⟨z, hz, hlog⟩ :=
      ih (e := { e' with holder := none }.note (.matchReturned call answer)) rfl hx
    refine ⟨z, .wait (by simp [hh]) hs hz, ?_⟩
    have he' : e'.matchLog = e.matchLog := (matchLog_alike ha).trans (matchLog_book _ _ _)
    rw [hlog, matchLog_note_returned, List.append_assoc, ← he']
    rfl

theorem concludes_of_grant (ho : e.Orderly) {op : Operation} (hi : e.Intends task op)
    (hs : e.step (.grant task) = some e') {events : List Event} (h : UntilFree e' events e'') :
    Concludes e task (e.registry.begin op) e'' := by
  obtain ⟨hfree, w, hw, ha⟩ := book_of_grant hi hs
  have hc : Concludes w task (e.registry.begin op) e'' :=
    concludes_of_book (hw.holder.trans hfree) ha h fun _ _ hh =>
      concludes_of_holder (ho.step hs) hh h
  exact hc.before (matchLog_alike hw) fun _ _ _ hop => hw.callers ▸ hop

theorem untilFree_of_grant {op : Operation} (hi : e.Intends task op)
    (hs : e.step (.grant task) = some e') {log : MatchLog} {r : Registry}
    {result : Except Error Unit} (hc : Registry.Completes (e.registry.begin op) log r result) :
    ∃ z, UntilFree e' (log.map fun p => .matchReturned p.2) z ∧ z.matchLog = e.matchLog ++ log := by
  obtain ⟨hfree, w, hw, ha⟩ := book_of_grant hi hs
  rw [← matchLog_alike hw]
  exact untilFree_of_completes hc (hw.holder.trans hfree) ha

/-- The task is to go through with the operation, and has nothing else to do after it. -/
def Undertakes (e : Engine) (op : Operation) : Task → Prop
  | .caller id => e.callers.get? id = some (.operation op .answer)
  | .watcher feed => ∃ o, e.outlets.get? feed = some o ∧ o.ending = op
  | .dispatcher | .poller _ => False

theorem Undertakes.intends {op : Operation} (h : e.Undertakes op task) : e.Intends task op := by
  cases task with
  | caller id => exact ⟨.answer, h⟩
  | watcher feed => exact h
  | dispatcher => exact h
  | poller id => exact h

/-- A task that is still in line is to do what it was to do all along. -/
theorem Undertakes.of_run {op : Operation} (hu : e.Undertakes op task) (h : e.Reachable)
    {later : List Event} (hr : e.run later = some e') (hq : task ∈ e'.queue) :
    e'.Undertakes op task := by
  cases task with
  | caller id =>
    have hw : e.callers.get? id = some (.operation op .answer) := hu
    have hlt : id < e.fresh := (h.attained.orderly.waits id _ hw).1
    have hb : e.TakesNothingBack id := fun op next cause hundo => by
      cases hw.symm.trans hundo
    obtain ⟨w, he', -⟩ := (Option.any_eq_true _ _).1 ((h.run hr).wants_of_mem_queue hq)
    have hsame := ((Fate.run hr hlt hb).waits w he').1
    exact he'.trans (hsame.symm.trans hw)
  | watcher feed =>
    obtain ⟨o, ho, hend⟩ := hu
    have hlt : feed < e.fresh := h.opens.lt feed (by simp [mail, ho])
    obtain ⟨o', ho', hend', -⟩ := stays_of_run Feed.lasting_isClosed hr hlt ho
    exact ⟨o', ho', hend'.trans hend⟩
  | dispatcher => exact hu
  | poller id => exact hu

end UnitControl.Engine
