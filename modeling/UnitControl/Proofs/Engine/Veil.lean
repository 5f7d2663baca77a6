import UnitControl.Proofs.Engine.Handle

/-!
# What others see of a caller

Nothing that the engine does for others depends on how long a caller will wait for its job, and, as
long as the handle is held, not even on whether it still waits. So an engine with a veil over one
caller does step by step what the engine does.
-/

namespace UnitControl

/-- What is seen of a wait: of the caller with this number that it waits for a job, or, if the
caller is hidden, nothing. -/
def Wait.seen (c : CallerId) (hidden : Bool) (id : CallerId) (w : Wait) : Option Wait :=
  if id = c then if hidden then none else some (.job none) else some w

namespace Engine

/-- The engine with a veil over one caller. If the caller is hidden, its departure and its answers
are not seen either. -/
def veil (c : CallerId) (hidden : Bool) (e : Engine) : Engine :=
  { e with
    callers := e.callers.filterMap (Wait.seen c hidden)
    leaving := e.leaving.filter fun id => !(hidden && id == c)
    journal := e.journal.filter fun entry => !(hidden && entry.answers c) }

/-- If the caller waits at all, it waits for its job. -/
def AwaitsJob (e : Engine) (c : CallerId) : Prop :=
  ∀ w, e.callers.get? c = some w → ∃ limit, w = .job limit

variable {c : CallerId} {hidden : Bool} {e e' : Engine}

theorem seen_of_ne {id : CallerId} (h : id ≠ c) (w : Wait) : w.seen c hidden id = some w :=
  if_neg h

theorem get?_veil_of_ne {id : CallerId} (h : id ≠ c) :
    (e.veil c hidden).callers.get? id = e.callers.get? id := by
  refine (Table.get?_filterMap e.callers _ id).trans ?_
  cases e.callers.get? id with
  | none => rfl
  | some w => exact seen_of_ne h w

theorem get?_veil_self (e : Engine) (c : CallerId) (hidden : Bool) :
    (e.veil c hidden).callers.get? c =
      (e.callers.get? c).bind fun _ => if hidden then none else some (.job none) := by
  refine (Table.get?_filterMap e.callers _ c).trans ?_
  cases e.callers.get? c with
  | none => rfl
  | some w => exact if_pos rfl

@[simp] theorem clock_veil : (e.veil c hidden).clock = e.clock := rfl

@[simp] theorem holder_veil : (e.veil c hidden).holder = e.holder := rfl

@[simp] theorem dispatcher_veil : (e.veil c hidden).dispatcher = e.dispatcher := rfl

@[simp] theorem registry_veil : (e.veil c hidden).registry = e.registry := rfl

@[simp] theorem outlets_veil : (e.veil c hidden).outlets = e.outlets := rfl

@[simp] theorem pollers_veil : (e.veil c hidden).pollers = e.pollers := rfl

theorem veil_note {entry : Entry} (h : entry.answers c = false) (e : Engine) :
    (e.note entry).veil c hidden = (e.veil c hidden).note entry := by
  simp [veil, note, h]

theorem veil_answer (e : Engine) (id : CallerId) (a : Answer) :
    (e.answer id a).veil c hidden = (e.veil c hidden).answer id a := by
  unfold answer
  cases hw : e.callers.get? id with
  | none =>
    have hnone : (e.veil c hidden).callers.get? id = none :=
      (Table.get?_filterMap _ _ _).trans (by rw [hw]; rfl)
    rw [Table.contains_eq_false_iff.2 hw, Table.contains_eq_false_iff.2 hnone]
    rfl
  | some w =>
    rw [if_pos (Table.contains_of_get? hw)]
    by_cases hid : id = c ∧ hidden = true
    · obtain ⟨rfl, rfl⟩ := hid
      have hnone : (e.veil id true).callers.get? id = none := by
        rw [get?_veil_self, hw]
        rfl
      rw [if_neg (by simp [Table.contains, hnone])]
      simp [veil, note, Entry.answers, List.filter_append, Table.filterMap_erase_of_none, Wait.seen]
    · have hsome : (e.veil c hidden).callers.contains id = true := by
        by_cases hc : id = c
        · subst hc
          have hh : hidden = false := by simpa using hid
          simp [Table.contains, get?_veil_self, hw, hh]
        · rw [Table.contains, get?_veil_of_ne hc, hw]
          rfl
      have hkept : (hidden && id == c) = false := by
        by_cases hc : id = c
        · simpa [hc] using hid
        · simp [hc]
      have hentry : (hidden && (Entry.answered id a).answers c) = false := hkept
      rw [if_pos hsome]
      simp only [veil, note, Table.filterMap_erase, List.filter_append, List.filter_cons,
        List.filter_nil, hkept, hentry, Bool.not_false, if_true]

theorem veil_dispatch (e : Engine) (r : Dispatcher × List Reply) :
    (e.dispatch r).veil c hidden = (e.veil c hidden).dispatch r := by
  obtain ⟨d, replies⟩ := r
  have hall (x : Engine) : (x.answerAll replies).veil c hidden =
      (x.veil c hidden).answerAll replies := by
    induction replies generalizing x with
    | nil => rfl
    | cons reply rest ih =>
      exact (ih _).trans (congrArg (answerAll · rest) (veil_answer x reply.1 reply.2))
  exact hall { e with dispatcher := d }

theorem veil_await {id : CallerId} (h : id ≠ c) (e : Engine) (w : Wait) :
    (e.await id w).veil c hidden = (e.veil c hidden).await id w := by
  simp only [veil, await, Table.filterMap_put (g := fun w => w) (seen_of_ne h)]

theorem veil_send (e : Engine) (command : Command) :
    (e.send command).veil c hidden = (e.veil c hidden).send command := veil_note rfl _

theorem veil_closeFeed (e : Engine) (feed : FeedId) :
    (e.closeFeed feed).veil c hidden = (e.veil c hidden).closeFeed feed := veil_note rfl _

theorem veil_abandon (e : Engine) (feed : Option FeedId) :
    (e.abandon feed).veil c hidden = (e.veil c hidden).abandon feed := by
  cases feed with
  | none => rfl
  | some f => exact veil_closeFeed _ f

theorem veil_startWatch (e : Engine) (feed : FeedId) :
    (e.startWatch feed).veil c hidden = (e.veil c hidden).startWatch feed := by
  simp only [startWatch, outlets_veil]
  cases (e.outlets.get? feed).map Outlet.watch with
  | none => rfl
  | some w =>
    cases w with
    | expected cancelled => cases cancelled <;> rfl
    | _ => rfl

theorem veil_conclude {id : CallerId} (h : id ≠ c) (e : Engine) (op : Registry.Operation)
    (finish : Finish) (result : Except Error Unit) :
    (e.conclude id op finish result).veil c hidden =
      (e.veil c hidden).conclude id op finish result := by
  cases result with
  | error err =>
    simp only [conclude, veil_answer, veil_abandon]
  | ok u =>
    cases finish with
    | answer => exact veil_answer e id _
    | watch =>
      simp only [conclude]
      cases op.newcomer? with
      | none => exact veil_answer e id _
      | some feed => exact (veil_startWatch _ feed).trans (by rw [veil_answer])
    | undo next cause =>
      simp only [conclude]
      cases op.newcomer? with
      | none => exact congrArg (enlist · _) (veil_await h e _)
      | some feed => exact congrArg (enlist · _) (veil_await h (e.setWatch feed .over) _)
    | fail cause => exact veil_answer e id _

theorem awaitsJob_veil (e : Engine) (c : CallerId) (hidden : Bool) :
    (e.veil c hidden).AwaitsJob c := by
  intro w hw
  rw [get?_veil_self] at hw
  obtain ⟨w', -, hw⟩ := Option.bind_eq_some_iff.1 hw
  cases hidden with
  | true => cases hw
  | false => exact ⟨none, (Option.some.inj hw).symm⟩

theorem finish_of_awaitsJob (h : e.AwaitsJob c) (result : Except Error Unit) :
    e.finish (.caller c) result = e := by
  simp only [finish]
  split
  · rename_i hw
    obtain ⟨limit, hl⟩ := h _ hw
    cases hl
  · rfl

theorem veil_finish (h : e.AwaitsJob c) (task : Task) (result : Except Error Unit) :
    (e.finish task result).veil c hidden = (e.veil c hidden).finish task result := by
  cases task with
  | caller id =>
    by_cases hid : id = c
    · subst hid
      rw [finish_of_awaitsJob h, finish_of_awaitsJob (awaitsJob_veil e id hidden)]
    · simp only [finish, get?_veil_of_ne hid]
      split
      · rw [veil_conclude hid]
        exact congrArg (conclude · id _ _ result) (veil_note rfl e)
      · rfl
  | watcher feed =>
    simp only [finish, outlets_veil]
    cases e.outlets.get? feed with
    | none => rfl
    | some o => exact congrArg (setWatch · feed .over) (veil_note rfl e)
  | dispatcher => rfl
  | poller id => rfl

theorem veil_proceed (h : e.AwaitsJob c) (task : Task) (p : Registry × Registry.Progress) :
    (e.proceed task p).veil c hidden = (e.veil c hidden).proceed task p := by
  obtain ⟨r, progress⟩ := p
  cases progress with
  | done result => exact veil_finish (e := { e with registry := r }) h task result
  | ask call pause => exact veil_note rfl _

theorem veil_operate (h : e.AwaitsJob c) (task : Task) (op : Registry.Operation) :
    (e.operate task op).veil c hidden = (e.veil c hidden).operate task op := by
  simp only [operate, registry_veil]
  cases e.registry.closes op with
  | none => exact veil_proceed h task _
  | some feed =>
    exact (veil_proceed (e := e.closeFeed feed) h task _).trans (by rw [veil_closeFeed]; rfl)

theorem enter_of_awaitsJob (h : e.AwaitsJob c) : e.enter (.caller c) = e := by
  simp only [enter]
  split
  · rename_i hw
    obtain ⟨limit, hl⟩ := h _ hw
    cases hl
  · rename_i hw
    obtain ⟨limit, hl⟩ := h _ hw
    cases hl
  · rfl

theorem veil_enter (h : e.AwaitsJob c) (task : Task) :
    (e.enter task).veil c hidden = (e.veil c hidden).enter task := by
  cases task with
  | caller id =>
    by_cases hid : id = c
    · subst hid
      rw [enter_of_awaitsJob h, enter_of_awaitsJob (awaitsJob_veil e id hidden)]
    · simp only [enter, get?_veil_of_ne hid]
      split
      · exact veil_answer e id _
      · exact veil_operate h _ _
      · rfl
  | watcher feed =>
    simp only [enter, outlets_veil]
    cases e.outlets.get? feed with
    | none => rfl
    | some o => exact veil_operate h _ _
  | dispatcher =>
    simp only [enter, dispatcher_veil, registry_veil]
    cases e.dispatcher.stage with
    | collecting parcel => exact veil_note rfl _
    | _ => rfl
  | poller id =>
    simp only [enter, pollers_veil, registry_veil, clock_veil]
    cases e.pollers.get? id with
    | none => rfl
    | some p =>
      dsimp only
      generalize p.step _ = next
      cases next <;> rfl

theorem veil_deliver (e : Engine) (parcel : Parcel Update) (targets : List FeedId) :
    (e.deliver parcel targets).veil c hidden = (e.veil c hidden).deliver parcel targets := by
  cases targets with
  | nil => rfl
  | cons feed rest =>
    have hnote {entry : Entry} (hn : entry.answers c = false) (x : Engine) (s : Stage) :
        { x.note entry with dispatcher := { e.dispatcher with stage := s } }.veil c hidden =
          { (x.veil c hidden).note entry with dispatcher := { e.dispatcher with stage := s } } :=
      veil_note hn { x with dispatcher := { e.dispatcher with stage := s } }
    have hskip := hnote (show (Entry.skipped feed parcel).answers c = false from rfl) e
    simp only [deliver, outlets_veil]
    cases e.outlets.get? feed with
    | none => exact hskip _
    | some o =>
      dsimp only
      cases o.feed.accepts parcel.lane with
      | false => exact hskip _
      | true => exact hnote (show (Entry.delivered feed parcel).answers c = false from rfl) _ _

theorem veil_askTargets (e : Engine) :
    e.askTargets.veil c hidden = (e.veil c hidden).askTargets := by
  simp only [askTargets, dispatcher_veil]
  cases e.dispatcher.stage <;> rfl

theorem veil_noteCall (e : Engine) : e.noteCall.veil c hidden = (e.veil c hidden).noteCall := by
  simp only [noteCall, dispatcher_veil]
  cases e.dispatcher.stage with
  | calling caller request => exact veil_note rfl e
  | _ => rfl

section Calls

variable {id : CallerId} (h : id ≠ c)
include h

theorem veil_noteAnswered (e : Engine) (a : Answer) :
    (e.note (.answered id a)).veil c hidden = (e.veil c hidden).note (.answered id a) :=
  veil_note (by simpa [Entry.answers] using h) e

theorem veil_submit (e : Engine) (request : JobRequest) (limit : Option (Nat × Error)) :
    (e.submit id request limit).veil c hidden = (e.veil c hidden).submit id request limit := by
  by_cases hs : e.dispatcher.hasStopped = true
  · have hs' : (e.veil c hidden).dispatcher.hasStopped = true := hs
    rw [submit, submit, if_pos hs, if_pos hs']
    exact veil_noteAnswered h e _
  · have hs' : ¬(e.veil c hidden).dispatcher.hasStopped = true := hs
    rw [submit, submit, if_neg hs, if_neg hs', veil_send, veil_await h]

theorem veil_submitWithin (e : Engine) (request : JobRequest) (d : Duration) (ago : Nat)
    (looks : Bool) : (e.submitWithin id request d ago looks).veil c hidden =
      (e.veil c hidden).submitWithin id request d ago looks := by
  simp only [submitWithin, clock_veil, apply_ite (veil c hidden), veil_noteAnswered h,
    veil_submit h]
  rfl

theorem veil_operateLater (e : Engine) (op : Registry.Operation) (finish : Finish) :
    (e.operateLater id op finish).veil c hidden =
      (e.veil c hidden).operateLater id op finish :=
  congrArg (enlist · _) (veil_await h e _)

theorem veil_queryLater (e : Engine) (q : Query) :
    (e.queryLater id q).veil c hidden = (e.veil c hidden).queryLater id q :=
  congrArg (enlist · _) (veil_await h e _)

theorem veil_operateOn (e : Engine) (unit : String) (op : String → Registry.Operation) :
    (e.operateOn id unit op).veil c hidden = (e.veil c hidden).operateOn id unit op := by
  unfold operateOn
  cases Name.canonical unit with
  | ok unit => exact veil_operateLater h e _ _
  | error fault => exact veil_noteAnswered h e _

theorem veil_call (e : Engine) (call : Call) :
    (e.call id call).veil c hidden = (e.veil c hidden).call id call := by
  cases call with
  | submit request limit =>
    cases limit with
    | none => exact veil_submit h e request none
    | some d => exact veil_submitWithin h e request d 0 false
  | submitLate request d ago looks => exact veil_submitWithin h e request d ago looks
  | job kind unit mode =>
    simp only [Engine.call]
    cases Name.canonical unit with
    | ok unit => exact veil_submit h e _ none
    | error fault => exact veil_noteAnswered h e _
  | pendingJobs =>
    by_cases hs : e.dispatcher.hasStopped = true
    · have hs' : (e.veil c hidden).dispatcher.hasStopped = true := hs
      rw [Engine.call, Engine.call, if_pos hs, if_pos hs']
      exact veil_noteAnswered h e _
    · have hs' : ¬(e.veil c hidden).dispatcher.hasStopped = true := hs
      rw [Engine.call, Engine.call, if_neg hs, if_neg hs', veil_send, veil_await h]
  | listUnits => exact (veil_note rfl _).trans (congrArg (note · _) (veil_await h e _))
  | add s unit => exact veil_operateOn h e unit _
  | remove s unit => exact veil_operateOn h e unit _
  | contains s unit =>
    simp only [Engine.call]
    cases Name.canonical unit with
    | ok unit => exact veil_queryLater h e _
    | error fault => exact veil_noteAnswered h e _
  | members s => exact veil_queryLater h e _
  | attach s values faults refusal => exact veil_operateLater h (e.openFeed id _ _ _) _ _
  | close s => exact veil_operateLater h { e with sets := e.sets.filter (· != s) } _ _
  | subscribe unit values refusal =>
    simp only [Engine.call]
    cases Name.canonical unit with
    | ok unit => exact veil_operateLater h (e.openFeed id _ _ _) _ _
    | error fault =>
      refine (veil_noteAnswered h _ _).trans (congrArg (note · _) ?_)
      exact veil_abandon (e.openFeed id _ _ _) _
  | references unit =>
    simp only [Engine.call]
    cases Name.canonical unit with
    | ok unit => exact veil_queryLater h e _
    | error fault => exact veil_noteAnswered h e _

end Calls

theorem veil_afterPoll (e : Engine) (id : PollerId) (p : Poller) :
    (e.afterPoll id p).veil c hidden = (e.veil c hidden).afterPoll id p := by
  unfold afterPoll
  cases p.isListing with
  | true => exact veil_note rfl (e.putPoller id p)
  | false => cases p.isScoping <;> rfl

theorem stepPoller_veil (e : Engine) (id : PollerId) (event : Poller.Event) :
    (e.veil c hidden).stepPoller? id event =
      (e.stepPoller? id event).map (veil c hidden) := by
  simp only [stepPoller?, pollers_veil]
  cases e.pollers.get? id with
  | none => rfl
  | some p =>
    rw [Option.map_map]
    exact Option.map_congr fun q _ => (veil_afterPoll e id q).symm

theorem onPoller_veil (e : Engine) (id : PollerId) (event : Poller.Event) :
    (e.veil c hidden).onPoller? id event = (e.onPoller? id event).map (veil c hidden) := by
  simp only [onPoller?, pollers_veil]
  cases e.pollers.get? id with
  | none => rfl
  | some p =>
    rw [Option.map_map]
    rfl

theorem onFeed_veil (e : Engine) (feed : FeedId) (lane : Lane)
    (f : Feed Update → Option (Feed Update)) :
    (e.veil c hidden).onFeed? feed lane f = (e.onFeed? feed lane f).map (veil c hidden) := by
  simp only [onFeed?, outlets_veil]
  cases e.outlets.get? feed with
  | none => rfl
  | some o =>
    rw [Option.map_map]
    rfl

theorem cancel_veil (e : Engine) (feed : FeedId) :
    (e.veil c hidden).cancel? feed = (e.cancel? feed).map (veil c hidden) := by
  simp only [cancel?, outlets_veil]
  cases (e.outlets.get? feed).map Outlet.watch with
  | none => rfl
  | some w =>
    cases w with
    | expected cancelled => cases cancelled <;> rfl
    | _ => rfl

theorem listReturned_veil (h : e.AwaitsJob c) (task : Task)
    (result : Except Error (List UnitStatus)) :
    (e.veil c hidden).listReturned? task result =
      (e.listReturned? task result).map (veil c hidden) := by
  have hself {x : Engine} (hx : x.AwaitsJob c) :
      x.listReturned? (.caller c) result = none := by
    simp only [listReturned?]
    split
    · rename_i hw
      obtain ⟨limit, hl⟩ := hx _ hw
      cases hl
    · rfl
  cases task with
  | caller id =>
    by_cases hid : id = c
    · subst hid
      rw [hself h, hself (awaitsJob_veil e id hidden)]
      rfl
    · simp only [listReturned?, get?_veil_of_ne hid]
      split
      · exact congrArg some (veil_answer e id _).symm
      · rfl
  | poller id =>
    exact (congrArg (stepPoller? · id _) (veil_note rfl e).symm).trans (stepPoller_veil _ id _)
  | watcher feed => rfl
  | dispatcher => rfl

theorem grant_veil (h : e.AwaitsJob c) (task : Task) :
    (e.veil c hidden).grant? task = (e.grant? task).map (veil c hidden) := by
  change (if (e.holder.isNone && e.queue.contains task) = true then _ else _) = _
  unfold grant?
  split
  · exact congrArg some (veil_enter (e := { e with queue := e.queue.erase task }) h task).symm
  · rfl

theorem matchReturned_veil (h : e.AwaitsJob c) (result : Except Error Unit) :
    (e.veil c hidden).matchReturned? result =
      (e.matchReturned? result).map (veil c hidden) := by
  simp only [matchReturned?, holder_veil, registry_veil]
  cases e.holder with
  | none => rfl
  | some holder =>
    let x := { e with holder := none }.note (.matchReturned holder.call result)
    have hx : x.AwaitsJob c := h
    refine congrArg some (Eq.trans ?_ (veil_proceed hx holder.task _).symm)
    exact congrArg (proceed · holder.task _) (veil_note rfl { e with holder := none }).symm

theorem jobReturned_veil (e : Engine) (result : Except Error String) :
    (e.veil c hidden).jobReturned? result = (e.jobReturned? result).map (veil c hidden) := by
  simp only [jobReturned?, dispatcher_veil]
  cases e.dispatcher.stage with
  | calling caller request =>
    rw [Option.map_map]
    refine Option.map_congr fun r _ => ?_
    have hn : (e.note (.jobReturned caller result)).veil c hidden =
        (e.veil c hidden).note (.jobReturned caller result) := veil_note rfl e
    change _ = ((e.note (.jobReturned caller result)).dispatch r).veil c hidden
    rw [veil_dispatch, hn]
  | _ => rfl

theorem arm_veil (e : Engine) : (e.veil c hidden).arm? = e.arm?.map (veil c hidden) := by
  simp only [arm?, dispatcher_veil, apply_ite (Option.map (veil c hidden))]
  rfl

theorem takeSignal_veil (e : Engine) :
    (e.veil c hidden).takeSignal? = e.takeSignal?.map (veil c hidden) := by
  simp only [takeSignal?, dispatcher_veil]
  cases e.dispatcher.signals with
  | nil => rfl
  | cons item rest =>
    rw [Option.map_map]
    refine Option.map_congr fun r _ => ?_
    have hn : (e.note (.tookSignal item)).veil c hidden =
        (e.veil c hidden).note (.tookSignal item) := veil_note rfl e
    change _ = (((e.note (.tookSignal item)).dispatch r).askTargets).veil c hidden
    rw [veil_askTargets, veil_dispatch, hn]

theorem look_veil (e : Engine) : (e.veil c hidden).look? = e.look?.map (veil c hidden) := by
  simp only [look?, dispatcher_veil, outlets_veil]
  cases e.dispatcher.stage with
  | blocked parcel feed rest roused => cases roused <;> rfl
  | _ => rfl

theorem unblock_veil (e : Engine) :
    (e.veil c hidden).unblock? = e.unblock?.map (veil c hidden) := by
  simp only [unblock?, dispatcher_veil, outlets_veil]
  cases e.dispatcher.stage with
  | blocked parcel feed rest roused =>
    dsimp only
    by_cases hp : ((e.outlets.get? feed).any fun o => o.feed.parked parcel.lane) = true
    · simp only [hp, if_true, Option.map_none]
    · simp only [hp]
      rfl
  | _ => rfl

/-- Nothing that happens looks through the veil, but the end of the caller's own patience and, if
the caller is hidden, its departure. -/
theorem react_veil {event : Event} (hc : c < e.fresh) (hj : e.AwaitsJob c)
    (hh : e.handle = true) (hx : event ≠ .expire c) (hl : hidden = true → event ≠ .leave c) :
    (e.veil c hidden).react event = (e.react event).map (veil c hidden) := by
  cases event with
  | call call =>
    have hv : ({ e with fresh := e.fresh + 1 }.call e.fresh call).veil c hidden = _ :=
      veil_call (Nat.ne_of_gt hc) _ call
    by_cases hp : e.permits call = true
    · exact (if_pos hp).trans (by rw [react, if_pos hp]; exact congrArg some hv.symm)
    · exact (if_neg hp).trans (by rw [react, if_neg hp]; rfl)
  | expire id =>
    have hid : id ≠ c := fun h => hx (h ▸ rfl)
    simp only [react, expire?, get?_veil_of_ne hid]
    split
    · rename_i time err hw
      by_cases ht : time ≤ e.clock.now
      · exact (if_pos ht).trans (by rw [if_pos ht]; exact congrArg some (veil_answer e id _).symm)
      · exact (if_neg ht).trans (by rw [if_neg ht]; rfl)
    · rfl
  | leave id =>
    have hkept : (!(hidden && id == c)) = true := by
      cases hidden with
      | false => rfl
      | true =>
        have hid : id ≠ c := fun h => hl rfl (h ▸ rfl)
        simp [hid]
    have hcontains : (e.veil c hidden).leaving.contains id = e.leaving.contains id := by
      rw [Bool.eq_iff_iff, List.contains_iff_mem, List.contains_iff_mem]
      exact List.mem_filter.trans (and_iff_left hkept)
    simp only [react, hcontains]
    split
    · simp [veil, List.erase_filter]
    · rfl
  | poll interval capacity isChanged scope =>
    by_cases hp : e.permitsPoll scope = true
    · exact (if_pos hp).trans (by rw [react, if_pos hp]; rfl)
    · exact (if_neg hp).trans (by rw [react, if_neg hp]; rfl)
  | openSet =>
    exact (if_pos hh).trans (by rw [react, if_pos hh]; rfl)
  | dropSet s => rfl
  | dropHandle => rfl
  | cancel feed => exact cancel_veil e feed
  | take source lane =>
    cases source with
    | feed feed => exact onFeed_veil e feed lane fun f => f.take? lane
    | poller id => exact onPoller_veil e id _
  | hangUp source lane =>
    cases source with
    | feed feed => exact onFeed_veil e feed lane fun f => some (f.hangUp lane)
    | poller id => exact onPoller_veil e id _
  | tick passed shown => rfl
  | signal item =>
    have hv : ({ e with dispatcher := e.dispatcher.receive item }.note (.arrived item)).veil c
        hidden = _ := veil_note rfl _
    by_cases hp : e.dispatcher.ended = true
    · exact (if_pos hp).trans (by rw [react, if_pos hp]; rfl)
    · exact (if_neg hp).trans (by rw [react, if_neg hp]; exact congrArg some hv.symm)
  | endSignals => rfl
  | jobReturned result => exact jobReturned_veil e result
  | matchReturned result => exact matchReturned_veil hj result
  | listReturned task result => exact listReturned_veil hj task result
  | grant task => exact grant_veil hj task
  | arm => exact arm_veil e
  | takeCommand =>
    simp only [react, dispatcher_veil, Option.map_map]
    refine Option.map_congr fun r _ => ?_
    change _ = ((e.dispatch r).noteCall).veil c hidden
    rw [veil_noteCall, veil_dispatch]
  | takeSignal => exact takeSignal_veil e
  | deliver =>
    simp only [react, deliver?, dispatcher_veil]
    cases e.dispatcher.stage with
    | sending parcel targets => exact congrArg some (veil_deliver e parcel targets).symm
    | _ => rfl
  | look => exact look_veil e
  | unblock => exact unblock_veil e
  | stop =>
    have hn : (e.note .stopped).veil c hidden = (e.veil c hidden).note .stopped := veil_note rfl e
    have hv : ((e.note .stopped).dispatch e.dispatcher.stop).veil c hidden =
        ((e.veil c hidden).note .stopped).dispatch e.dispatcher.stop := by
      rw [veil_dispatch, hn]
    simp only [react, dispatcher_veil, reachable_of_handle hh,
      reachable_of_handle (e := e.veil c hidden) hh]
    by_cases hp : e.dispatcher.mayStop true = true
    · rw [if_pos hp, if_pos hp]
      exact congrArg some hv.symm
    · rw [if_neg hp, if_neg hp]
      rfl
  | unblockPoller id => exact stepPoller_veil e id _
  | wakePoller id => exact stepPoller_veil e id _

theorem vanish_veil (hj : e.AwaitsJob c) {id : CallerId} (hl : hidden = true → id ≠ c) :
    (e.veil c hidden).vanish? id = (e.vanish? id).map (veil c hidden) := by
  have herase : { e.veil c hidden with callers := (e.veil c hidden).callers.erase id } =
      { e with callers := e.callers.erase id }.veil c hidden := by
    simp only [veil, Table.filterMap_erase]
  by_cases hid : id = c
  · subst hid
    obtain rfl : hidden = false := Bool.eq_false_iff.2 fun h => hl h rfl
    have hseen := get?_veil_self e id false
    cases hw : e.callers.get? id with
    | none =>
      rw [hw] at hseen
      simp only [vanish?, hw, hseen]
      rfl
    | some w =>
      obtain ⟨limit, rfl⟩ := hj w hw
      rw [hw] at hseen
      simp only [vanish?, hw, hseen, Option.bind_some]
      exact congrArg some herase
  · simp only [vanish?, get?_veil_of_ne hid]
    split
    · exact congrArg some herase
    · exact congrArg some herase
    · rfl

theorem startles_veil (h : e'.handle = true) :
    (e.veil c hidden).startles (e'.veil c hidden) = e.startles e' := by
  have hv : (e'.veil c hidden).handle = true := h
  simp only [startles, dispatcher_veil, reachable_of_handle h, reachable_of_handle hv]
  simp

def startleIf (b : Bool) (e : Engine) : Engine :=
  if b then { e with dispatcher := e.dispatcher.startle } else e

theorem handle_startleIf (b : Bool) (e : Engine) : (e.startleIf b).handle = e.handle := by
  cases b <;> rfl

theorem veil_startleIf (b : Bool) (e : Engine) :
    (e.startleIf b).veil c hidden = (e.veil c hidden).startleIf b := by
  cases b <;> rfl

/-- What an act does before the dispatcher is startled. -/
def perform? (e : Engine) : Act → Option Engine
  | .event event => e.react event
  | .vanish id => e.vanish? id

theorem act_eq (e : Engine) (a : Act) :
    e.act a = (e.perform? a).map fun x => x.startleIf (e.startles x) := by
  cases a <;> rfl

/-- An act is possible behind the veil if it is possible, and leads to the same behind it. -/
theorem act_veil_iff {a : Act} {s : Engine} (hc : c < e.fresh) (hj : e.AwaitsJob c)
    (hs : s.handle = true) (hx : a ≠ .event (.expire c))
    (hl : hidden = true → a ≠ .event (.leave c) ∧ a ≠ .vanish c) :
    (e.veil c hidden).act a = some s ↔ ∃ e', e.act a = some e' ∧ e'.veil c hidden = s := by
  have hperform (hh : e.handle = true) :
      (e.veil c hidden).perform? a = (e.perform? a).map (veil c hidden) := by
    cases a with
    | event event =>
      exact react_veil hc hj hh (fun h => hx (congrArg _ h)) fun h h' => (hl h).1 (congrArg _ h')
    | vanish id => exact vanish_veil hj fun h hid => (hl h).2 (congrArg _ hid)
  have hsame {x : Engine} (hx : x.handle = true) :
      (x.veil c hidden).startleIf ((e.veil c hidden).startles (x.veil c hidden)) =
        (x.startleIf (e.startles x)).veil c hidden := by
    rw [startles_veil hx, veil_startleIf]
  constructor
  · intro h
    have hh : (e.veil c hidden).handle = true := (onward_of_act h).handle hs
    rw [act_eq, hperform hh, Option.map_map] at h
    obtain ⟨x, hp, rfl⟩ := Option.map_eq_some_iff.1 h
    have hx : x.handle = true := (handle_startleIf _ (x.veil c hidden)).symm.trans hs
    exact ⟨_, by rw [act_eq, hp]; rfl, (hsame hx).symm⟩
  · rintro ⟨e', h, rfl⟩
    have hh : e.handle = true := (onward_of_act h).handle hs
    rw [act_eq] at h
    obtain ⟨x, hp, rfl⟩ := Option.map_eq_some_iff.1 h
    have hx : x.handle = true := (handle_startleIf _ _).symm.trans hs
    rw [act_eq, hperform hh, hp, ← hsame hx]
    rfl

end Engine

end UnitControl
