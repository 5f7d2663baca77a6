import UnitControl.Proofs.Engine.Idled
import UnitControl.Proofs.Engine.Newcomers
import UnitControl.Proofs.Engine.Progress

/-!
# No deadlock over the registry

Whoever has the registry waits for the bus and for nothing else, so a dispatcher that waits for a
consumer is in nobody's way there.
-/

namespace UnitControl

def Call.isForRegistry : Call → Bool
  | submit .. | submitLate .. | job .. | pendingJobs | listUnits => false
  | _ => true

namespace Engine

variable {e e' : Engine} {id : CallerId} {event : Event} {task : Task} {holder : Holder}

/-- The task that has the registry waits for the bus to answer the last call that was made for a
match rule, and goes on when it does. No other event ends the wait or changes the registry. -/
structure AwaitsBus (e : Engine) (holder : Holder) : Prop where
  operates : e.Operates holder.task
  wants : e.wants holder.task = true
  away : holder.task ∉ e.queue
  asked : e.matchCalls = e.matchLog.map Prod.fst ++ [holder.call]
  answered : ∀ answer, ∃ e', e.step (.matchReturned answer) = some e' ∧
    ∀ next, e'.holder = some next → next.task = holder.task
  keeps : ∀ event e', (∀ answer, event ≠ .matchReturned answer) → e.step event = some e' →
    e'.holder = e.holder ∧ e'.registry = e.registry

/-- In the later engine nobody wants the registry. Whoever wanted it before has an answer, and what
was cancelled has ended, but the dispatcher still waits where it waited. -/
structure GetsThrough (e z : Engine) : Prop where
  record : e.record ⊆ z.record
  rests : ∀ task, z.wants task = false
  answered : ∀ id, e.wants (.caller id) = true → ∃ a, Entry.answered id a ∈ z.record
  ended : ∀ feed, (e.watch? feed).any Watch.isCancelled = true → z.watch? feed = some .over
  heldUp : ∀ parcel feed rest, e.HeldUp parcel feed rest → z.HeldUp parcel feed rest

theorem task_of_proceed {p : Registry × Registry.Progress} (h : e.holder = none)
    (hh : (e.proceed task p).holder = some holder) : holder.task = task := by
  rw [(alike_proceed task p).holder] at hh
  obtain ⟨r, progress⟩ := p
  cases progress with
  | done result =>
    rw [book_done, holder_settle, h] at hh
    cases hh
  | ask call pause =>
    cases hh
    rfl

theorem task_of_operate {op : Registry.Operation} (h : e.holder = none)
    (hh : (e.operate task op).holder = some holder) : holder.task = task := by
  unfold operate at hh
  split at hh
  · exact task_of_proceed (e := e.closeFeed _) h hh
  · exact task_of_proceed h hh

theorem task_of_enter (h : e.holder = none) (hh : (e.enter task).holder = some holder) :
    holder.task = task := by
  have hfree {x : Engine} (hx : x.holder = some holder) (hn : x.holder = none) :
      holder.task = task := by cases hx.symm.trans hn
  cases task with
  | caller id =>
    simp only [enter] at hh
    split at hh
    · exact hfree hh ((holder_answer e id _).trans h)
    · exact task_of_operate h hh
    · exact hfree hh h
  | watcher feed =>
    simp only [enter] at hh
    split at hh
    · exact task_of_operate h hh
    · exact hfree hh h
  | dispatcher =>
    simp only [enter] at hh
    split at hh
    · exact hfree hh h
    · exact hfree hh h
  | poller id =>
    simp only [enter] at hh
    split at hh
    · split at hh
      · exact hfree hh h
      · exact hfree hh h
    · exact hfree hh h

theorem task_of_grant (hs : e.step (.grant task) = some e') (hh : e'.holder = some holder) :
    holder.task = task := by
  refine of_step (P := fun x => ∀ holder, x.holder = some holder → holder.task = task) hs
    (fun x hr => ?_) (fun _ hx => hx) holder hh
  cases hr with
  | grant hfree hq => exact fun holder => task_of_enter (e := { e with queue := _ }) hfree

theorem task_of_matchReturned {answer : Except Error Unit} {next : Holder}
    (hs : e.step (.matchReturned answer) = some e') (hh : e.holder = some holder)
    (hn : e'.holder = some next) : next.task = holder.task := by
  refine of_step (P := fun x => ∀ next, x.holder = some next → next.task = holder.task) hs
    (fun x hr => ?_) (fun _ hx => hx) next hn
  cases hr with
  | matchReturned _ hholder =>
    cases hh.symm.trans hholder
    exact fun next => task_of_proceed rfl

theorem Reachable.awaitsBus (h : e.Reachable) (hh : e.holder = some holder) :
    e.AwaitsBus holder := by
  have hop := h.lines.holder holder hh
  have hplaces := h.places holder.task
  have hle := (e.wants holder.task).toNat_le
  simp only [Engine.places, hh, Option.any_some, decide_true, Bool.toNat_true] at hplaces
  refine ⟨hop, ?_, ?_, ?_, fun answer => ?_, fun event e' hm hs => ?_⟩
  · cases hw : e.wants holder.task with
    | true => rfl
    | false =>
      rw [hw] at hplaces
      simp at hplaces
  · intro hq
    have hpos := List.count_pos_iff.2 hq
    omega
  · rw [h.attained.follows.calls, openCall?, hh]
    rfl
  · obtain ⟨e', hs, -⟩ := exists_step_matchReturned hh answer
    exact ⟨e', hs, fun next => task_of_matchReturned hs hh⟩
  · have hr := retains_of_step h.attained.orderly (by simp [hh]) hs hm
    exact ⟨hr.holder, hr.registry⟩

theorem Reachable.over_of_rests (h : e.Reachable) (hr : ∀ task, e.wants task = false)
    {feed : FeedId} (hc : (e.watch? feed).any Watch.isCancelled = true) :
    e.watch? feed = some .over := by
  obtain ⟨w, hw, hcancelled⟩ := (Option.any_eq_true _ _).1 hc
  cases w with
  | expected cancelled =>
    have hwants := (h.introduced feed cancelled hw).wants
    rw [hr] at hwants
    cases hwants
  | watching => cases hcancelled
  | ending =>
    have hwants := hr (.watcher feed)
    simp [Engine.wants, hw, Watch.isEnding] at hwants
  | _ => exact hw

theorem Reachable.getsThrough (h : e.Reachable) : e.ComesTo e.GetsThrough := by
  have hkeeps := h.comesToRest.keeping (I := fun z => z.Reachable ∧ Furthers e z) ⟨h, .refl e⟩
    fun x y hx hy => by
      have hfurthers := hx.2.trans (.of_advances hy)
      obtain ⟨event, -, hs⟩ := hy
      exact ⟨hx.1.step hs, hfurthers⟩
  refine hkeeps.imp fun z ⟨hrests, hz, hf⟩ =>
    ⟨hf.record, hrests, fun id hw => ?_, fun feed hc => ?_, hf.heldUp⟩
  · exact (hf.callers id hw).resolve_left (by simp [hrests])
  · exact hz.over_of_rests hrests (hf.cancelled feed hc)

variable {parcel : Parcel Update} {feed : FeedId} {rest : List FeedId}

theorem heldUp_of_step (h : e.HeldUp parcel feed rest) (ha : event.isAside = true)
    (hs : e.step event = some e') : e'.HeldUp parcel feed rest := by
  obtain ⟨roused, hstage⟩ := h
  refine of_step (P := fun x => x.HeldUp parcel feed rest) hs
    (fun x hr => ⟨roused, (passesBy_of_reaction hr ha).stage.trans hstage⟩) fun x hx => ?_
  exact (Furthers.startle x).heldUp _ _ _ hx

theorem wants_of_call (e : Engine) (id : CallerId) {call : Call} (h : call.isForRegistry = true) :
    (∃ a, Entry.answered id a ∈ (e.call id call).record) ∨
      (e.call id call).wants (.caller id) = true := by
  have hwants (x : Engine) (w : Wait) (hw : w.isForRegistry = true) :
      ((x.await id w).enlist (.caller id)).wants (.caller id) = true :=
    (wants_await x id w (.caller id)).trans ((if_pos rfl).trans hw)
  have hnote (x : Engine) (a : Answer) :
      Entry.answered id a ∈ (x.note (.answered id a)).record := by
    rw [record_note]
    exact List.mem_cons_self
  have hoperate (unit : String) (op : String → Registry.Operation) :
      (∃ a, Entry.answered id a ∈ (e.operateOn id unit op).record) ∨
        (e.operateOn id unit op).wants (.caller id) = true := by
    unfold operateOn
    split
    · exact .inr (hwants _ _ rfl)
    · exact .inl ⟨_, hnote _ _⟩
  cases call with
  | add s unit => exact hoperate _ _
  | remove s unit => exact hoperate _ _
  | contains s unit =>
    simp only [Engine.call]
    split
    · exact .inr (hwants _ _ rfl)
    · exact .inl ⟨_, hnote _ _⟩
  | members s => exact .inr (hwants _ _ rfl)
  | attach s values faults refusal => exact .inr (hwants _ _ rfl)
  | close s => exact .inr (hwants _ _ rfl)
  | subscribe unit values refusal =>
    simp only [Engine.call]
    split
    · exact .inr (hwants _ _ rfl)
    · exact .inl ⟨_, hnote _ _⟩
  | references unit =>
    simp only [Engine.call]
    split
    · exact .inr (hwants _ _ rfl)
    · exact .inl ⟨_, hnote _ _⟩
  | _ => cases h

theorem exists_step_call {call : Call} (hc : call.isForRegistry = true)
    (hp : e.permits call = true) : ∃ y, e.step (.call call) = some y ∧
      ((∃ a, Entry.answered e.fresh a ∈ y.record) ∨ y.wants (.caller e.fresh) = true) := by
  have hr : e.react (.call call) = some ({ e with fresh := e.fresh + 1 }.call e.fresh call) :=
    if_pos hp
  obtain ⟨d, hs⟩ := exists_step_of_react hr
  exact ⟨_, hs, wants_of_call { e with fresh := e.fresh + 1 } e.fresh hc⟩

theorem exists_step_cancel {w : Watch} (hw : e.watch? feed = some w)
    (hc : w.isCancelled = false) : ∃ y, e.step (.cancel feed) = some y ∧
      (y.watch? feed).any Watch.isCancelled = true := by
  have hset (w' : Watch) (d : Dispatcher) :
      { e.setWatch feed w' with dispatcher := d }.watch? feed = some w' := by
    have h := watch?_setWatch e feed w' feed
    rw [if_pos rfl, hw] at h
    exact h
  have hwatch : (e.outlets.get? feed).map Outlet.watch = some w := hw
  cases w with
  | expected cancelled =>
    obtain rfl : cancelled = false := hc
    have hr : e.react (.cancel feed) = some (e.setWatch feed (.expected true)) := by
      simp only [react, cancel?, hwatch]
    obtain ⟨d, hs⟩ := exists_step_of_react hr
    refine ⟨_, hs, ?_⟩
    rw [hset]
    rfl
  | watching =>
    have hr : e.react (.cancel feed) = some ((e.setWatch feed .ending).enlist (.watcher feed)) := by
      simp only [react, cancel?, hwatch]
    obtain ⟨d, hs⟩ := exists_step_of_react hr
    exact ⟨_, hs, congrArg (Option.any Watch.isCancelled) (hset .ending d)⟩
  | _ => cases hc

/-- Whatever an engine has been through. Who has the registry waits for the bus to answer a call for
a match rule, and for nothing else; if nobody has it, whoever wants it can have it at once. Whoever
is next in each case and whatever the bus answers, all get through. So they do while the dispatcher
waits for room on the channel of a feed: every call on the registry is answered and every
subscription can be cancelled before there is room. And what happens until the dispatcher has its
turn, to the registry and to everybody else, is what would happen if it were idle. -/
theorem Reachable.never_deadlocks (h : e.Reachable) :
    (∀ holder, e.holder = some holder → e.AwaitsBus holder) ∧
    (e.holder = none → ∀ task, e.wants task = true →
      e.next? task = some (.grant task) ∧ ∃ e', e.step (.grant task) = some e' ∧
        ∀ holder, e'.holder = some holder → holder.task = task) ∧
    e.ComesTo e.GetsThrough ∧
    ∀ parcel feed rest, e.HeldUp parcel feed rest →
      (∀ call, call.isForRegistry = true → e.permits call = true →
        ∃ y, e.step (.call call) = some y ∧ y.HeldUp parcel feed rest ∧
          y.ComesTo fun z => z.HeldUp parcel feed rest ∧
            ∃ a, .answered e.fresh a ∈ z.record) ∧
      (∀ f w, e.watch? f = some w → w.isCancelled = false →
        ∃ y, e.step (.cancel f) = some y ∧ y.HeldUp parcel feed rest ∧
          y.ComesTo fun z => z.HeldUp parcel feed rest ∧ z.watch? f = some .over) ∧
      e.idled.dispatcher.stage = .idle ∧
      ∀ later, (∀ event ∈ later, event.isOfDispatcher = false) →
        e.idled.run later = (e.run later).map idled := by
  refine ⟨fun holder => h.awaitsBus, fun hfree task hw => ?_, h.getsThrough,
    fun parcel feed rest hheld => ⟨fun call hc hp => ?_, fun f w hw hc => ?_, ?_,
      fun later => run_idled⟩⟩
  · have hq := h.mem_queue_of_wants hfree hw
    have hc : e.queue.contains task = true := List.contains_iff_mem.2 hq
    obtain ⟨e', hs⟩ := exists_step_grant hfree hq
    refine ⟨?_, e', hs, fun holder => task_of_grant hs⟩
    simp only [next?, hc, hfree, if_true, Option.isNone_none]
  · obtain ⟨y, hs, hy⟩ := exists_step_call hc hp
    have hyheld := heldUp_of_step hheld rfl hs
    refine ⟨y, hs, hyheld, (h.step hs).getsThrough.imp fun z hthrough =>
      ⟨hthrough.heldUp _ _ _ hyheld, ?_⟩⟩
    obtain ⟨a, ha⟩ | hwants := hy
    · exact ⟨a, hthrough.record ha⟩
    · exact hthrough.answered _ hwants
  · obtain ⟨y, hs, hy⟩ := exists_step_cancel hw hc
    have hyheld := heldUp_of_step hheld rfl hs
    exact ⟨y, hs, hyheld, (h.step hs).getsThrough.imp fun z hthrough =>
      ⟨hthrough.heldUp _ _ _ hyheld, hthrough.ended f hy⟩⟩
  · obtain ⟨roused, hstage⟩ := hheld
    simp only [idled, Dispatcher.idled, hstage, Stage.idled]

/-- The sink of a set takes nothing, so the dispatcher waits. The sink can be cancelled all the
same, and a unit can be added to the set, for which only the bus is waited for. -/
theorem Reachable.never_deadlocks_stalling :
    ∃ (x y w u z : Engine) (parcel : Parcel Update) (holder : Holder),
      (start 1 .exact).run stalling.dropLast = some x ∧ x.HeldUp parcel 2 [] ∧
      x.step (.cancel 2) = some y ∧
      (y.ComesTo fun z => z.HeldUp parcel 2 [] ∧ z.watch? 2 = some .over) ∧
      x.step (.call (.add 0 "c.service")) = some w ∧
      (w.ComesTo fun z => z.HeldUp parcel 2 [] ∧ ∃ a, .answered x.fresh a ∈ z.record) ∧
      w.next? (.caller 4) = some (.grant (.caller 4)) ∧ w.step (.grant (.caller 4)) = some u ∧
      u.holder = some holder ∧ u.AwaitsBus holder ∧
      w.idled.run [.grant (.caller 4), .matchReturned (.ok ())] = some z.idled ∧
      z.registry.count "c.service" = 1 := by
  obtain ⟨x, hx, hstage, hwatch, hpermits, w, hw, hfree, hwants, u, hu, ⟨holder, hholder⟩, z, hz,
      hcount⟩ : ∃ x, (start 1 .exact).run stalling.dropLast = some x ∧
      x.dispatcher.stage.standstill? = some (.values, 2, [], false) ∧
      x.watch? 2 = some .watching ∧ x.permits (.add 0 "c.service") = true ∧
      ∃ w, x.step (.call (.add 0 "c.service")) = some w ∧ w.holder.isNone = true ∧
        w.wants (.caller 4) = true ∧
        ∃ u, w.step (.grant (.caller 4)) = some u ∧ (∃ holder, u.holder = some holder) ∧
          ∃ z, w.run [.grant (.caller 4), .matchReturned (.ok ())] = some z ∧
            z.registry.count "c.service" = 1 :=
    ⟨((start 1 .exact).run stalling.dropLast).get (by decide +kernel), (Option.some_get _).symm,
      by decide +kernel, by decide +kernel, by decide +kernel, Option.get _ (by decide +kernel),
      (Option.some_get _).symm, by decide +kernel, by decide +kernel,
      Option.get _ (by decide +kernel), (Option.some_get _).symm,
      Option.isSome_iff_exists.1 (by decide +kernel), Option.get _ (by decide +kernel),
      (Option.some_get _).symm, by decide +kernel⟩
  have hxr : x.Reachable := ⟨1, .exact, stalling.dropLast, hx⟩
  obtain ⟨parcel, hblocked, -⟩ := Stage.standstill?_eq_some_iff.1 hstage
  have hheld : x.HeldUp parcel 2 [] := ⟨false, hblocked⟩
  obtain ⟨hcalls, hcancels, -⟩ := (Reachable.never_deadlocks hxr).2.2.2 parcel 2 [] hheld
  obtain ⟨y, hy, -, hycomes⟩ := hcancels 2 .watching hwatch rfl
  obtain ⟨w', hw', hwheld, hwcomes⟩ := hcalls (.add 0 "c.service") rfl hpermits
  cases Option.some.inj (hw.symm.trans hw')
  have hwr := hxr.step hw
  obtain ⟨-, hgrants, -, hstalled⟩ := Reachable.never_deadlocks hwr
  obtain ⟨hnext, -⟩ := hgrants (Option.isNone_iff_eq_none.1 hfree) (.caller 4) hwants
  have hawaits := (Reachable.never_deadlocks (hwr.step hu)).1 holder hholder
  have hidle := (hstalled parcel 2 [] hwheld).2.2.2
    [.grant (.caller 4), .matchReturned (.ok ())] (by simp [Event.isOfDispatcher])
  rw [hz] at hidle
  exact ⟨x, y, w, u, z, parcel, holder, hx, hheld, hy, hycomes, hw, hwcomes, hnext, hu, hholder,
    hawaits, hidle, hcount⟩

end Engine

end UnitControl
