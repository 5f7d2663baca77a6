import UnitControl.Proofs.Engine.Feeds
import UnitControl.Proofs.Engine.Rounds
import UnitControl.Proofs.Registry.Endings

/-!
# The end of a subscription

A subscription ends when a task gets the registry for an operation that closes its feed. From then
on nothing has to do with the feed any more, and its channels, which are closed, only become
emptier.
-/

namespace UnitControl

def Wait.operation? : Wait → Option Registry.Operation
  | operation op _ => some op
  | _ => none

theorem Wait.operation?_eq_some_iff {w : Wait} {op : Registry.Operation} :
    w.operation? = some op ↔ ∃ finish, w = .operation op finish := by
  cases w <;> simp [operation?]

/-- The feeds to which a parcel is still to be sent, while the dispatcher sends it. -/
def Stage.targets? : Stage → Option (List FeedId)
  | sending _ targets => some targets
  | _ => none

theorem Stage.targets?_eq_some_iff {s : Stage} {targets : List FeedId} :
    s.targets? = some targets ↔ ∃ parcel, s = .sending parcel targets := by
  cases s <;> simp [targets?]

namespace Engine

/-- In this event a task gets the registry for an operation that closes the feed: another sink takes
its place, its set is closed, or it is cancelled. -/
def Ends (e : Engine) (feed : FeedId) (event : Event) : Prop :=
  ∃ task op, event = .grant task ∧ e.Intends task op ∧ e.registry.closes op = some feed

/-- The operation that a task intends, computed. -/
def intent? (e : Engine) : Task → Option Registry.Operation
  | .caller id => (e.callers.get? id).bind Wait.operation?
  | .watcher feed => (e.outlets.get? feed).map Outlet.ending
  | .dispatcher | .poller _ => none

def ends? (e : Engine) : Event → Option FeedId
  | .grant task => (e.intent? task).bind e.registry.closes
  | _ => none

structure Ended (e : Engine) (feed : FeedId) : Prop where
  lt : feed < e.fresh
  unconcerned : ¬e.Concerns feed
  shut : ∃ o, e.outlets.get? feed = some o ∧ o.feed.IsClosed

variable {e e' : Engine} {event : Event} {feed : FeedId} {o : Outlet}

theorem intent?_eq_some_iff {task : Task} {op : Registry.Operation} :
    e.intent? task = some op ↔ e.Intends task op := by
  cases task with
  | caller id => simp [intent?, Intends, Option.bind_eq_some_iff, Wait.operation?_eq_some_iff]
  | watcher feed => simp [intent?, Intends, Option.map_eq_some_iff]
  | dispatcher | poller id => simp [intent?, Intends]

theorem ends?_eq_some_iff : e.ends? event = some feed ↔ e.Ends feed event := by
  cases event with
  | grant task => simp [ends?, Ends, Option.bind_eq_some_iff, intent?_eq_some_iff]
  | _ => simp [ends?, Ends]

instance : Decidable (e.Ends feed event) := decidable_of_iff _ ends?_eq_some_iff

@[simp] theorem registry_proceed (e : Engine) (task : Task) (p : Registry × Registry.Progress) :
    (e.proceed task p).registry = p.1 :=
  (alike_proceed task p).registry.trans (registry_book e task p)

@[simp] theorem registry_operate (e : Engine) (task : Task) (op : Registry.Operation) :
    (e.operate task op).registry = (e.registry.begin op).1 := by
  unfold operate
  cases e.registry.closes op <;> exact registry_proceed _ _ _

theorem enter_of_intends {task : Task} {op : Registry.Operation} (h : e.Intends task op) :
    e.enter task = e.operate task op := by
  cases task with
  | caller id =>
    obtain ⟨finish, hw⟩ := h
    simp only [enter, hw]
  | watcher feed =>
    obtain ⟨o, ho, rfl⟩ := h
    simp only [enter, ho]
  | dispatcher => exact h.elim
  | poller id => exact h.elim

theorem registry_enter (e : Engine) (task : Task) :
    (e.enter task).registry = e.registry ∨ ∃ op, e.Intends task op := by
  cases task with
  | caller id =>
    simp only [enter]
    split
    · exact .inl (registry_answer _ _ _)
    · rename_i op finish hw
      exact .inr ⟨op, finish, hw⟩
    · exact .inl rfl
  | watcher feed =>
    simp only [enter]
    split
    · rename_i o ho
      exact .inr ⟨o.ending, o, ho, rfl⟩
    · exact .inl rfl
  | dispatcher =>
    simp only [enter]
    split <;> exact .inl rfl
  | poller id =>
    simp only [enter]
    split
    · split <;> exact .inl rfl
    · exact .inl rfl

theorem registry_submit (e : Engine) (id : CallerId) (request : JobRequest)
    (limit : Option (Nat × Error)) : (e.submit id request limit).registry = e.registry := by
  unfold submit
  split <;> rfl

theorem registry_submitWithin (e : Engine) (id : CallerId) (request : JobRequest) (d : Duration)
    (ago : Nat) (looks : Bool) :
    (e.submitWithin id request d ago looks).registry = e.registry := by
  obtain ⟨err, -, h⟩ | ⟨deadline, h⟩ := submitWithin_cases e id request d ago looks
  · rw [h]
    rfl
  · rw [h]
    exact registry_submit e id request _

theorem registry_operateOn (e : Engine) (id : CallerId) (unit : String)
    (op : String → Registry.Operation) : (e.operateOn id unit op).registry = e.registry := by
  unfold operateOn
  split <;> rfl

theorem registry_call (e : Engine) (id : CallerId) (call : Call) :
    (e.call id call).registry = e.registry := by
  cases call with
  | submit request limit =>
    cases limit with
    | none => exact registry_submit e id request none
    | some d => exact registry_submitWithin e id request d 0 false
  | submitLate request d ago looks => exact registry_submitWithin e id request d ago looks
  | job kind unit mode =>
    simp only [Engine.call]
    split
    · exact registry_submit e id _ none
    · rfl
  | add s unit => exact registry_operateOn e id unit _
  | remove s unit => exact registry_operateOn e id unit _
  | pendingJobs | contains s unit | subscribe unit values refusal | references unit =>
    simp only [Engine.call]
    split <;> rfl
  | listUnits | members s | attach s values faults refusal | close s => rfl

theorem registry_cases (h : e.Reaction event e') : e'.registry = e.registry ∨
    (∃ task op, event = .grant task ∧ e.Intends task op ∧
      e'.registry = (e.registry.begin op).1) ∨
    ∃ holder answer, e.holder = some holder ∧
      e'.registry = (e.registry.resume answer holder.pause).1 := by
  cases h with
  | call h => exact .inl (registry_call _ _ _)
  | expire hw ht => exact .inl (registry_answer _ _ _)
  | cancel h => exact .inl (alike_cancel h).registry
  | takeFeed h => exact .inl (alike_onFeed h).registry
  | takePoller h => exact .inl (alike_onPoller h).registry
  | hangUpFeed h => exact .inl (alike_onFeed h).registry
  | hangUpPoller h => exact .inl (alike_onPoller h).registry
  | jobReturned hs hr => exact .inl (registry_dispatch _ _)
  | matchReturned answer h => exact .inr (.inr ⟨_, answer, h, registry_proceed _ _ _⟩)
  | listed result hw => exact .inl (registry_answer _ _ _)
  | polled h => exact .inl (alike_stepPoller h).registry
  | @grant task hh hq =>
    obtain hr | ⟨op, hi⟩ := registry_enter { e with queue := e.queue.erase task } task
    · exact .inl hr
    · refine .inr (.inl ⟨task, op, rfl, hi, ?_⟩)
      rw [enter_of_intends hi, registry_operate]
  | takeCommand hr => exact .inl ((registry_noteCall _).trans (registry_dispatch _ _))
  | takeSignal hi hr => exact .inl (alike_askTargets.registry.trans (registry_dispatch _ _))
  | deliver hs => exact .inl (alike_deliver hs).registry
  | look h => exact .inl (alike_look h).registry
  | unblock h => exact .inl (alike_unblock h).registry
  | stop h => exact .inl (registry_dispatch _ _)
  | unblockPoller h => exact .inl (alike_stepPoller h).registry
  | wakePoller h => exact .inl (alike_stepPoller h).registry
  | _ => exact .inl rfl

theorem ends_of_step (hatt : e.Attained) (h : e.step event = some e')
    (hs : e.registry.Serves feed) (hs' : ¬e'.registry.Serves feed) : e.Ends feed event := by
  obtain ⟨e₁, hr, he⟩ := reaction_of_step h
  have hs₁ : ¬e₁.registry.Serves feed := by
    rcases he with rfl | rfl <;> exact hs'
  obtain hreg | ⟨task, op, rfl, hi, hreg⟩ | ⟨holder, answer, hh, hreg⟩ := registry_cases hr
  · exact absurd (hreg ▸ hs) hs₁
  · refine ⟨task, op, rfl, hi, Decidable.of_not_not fun hc => hs₁ ?_⟩
    rw [hreg]
    exact hs.begin hc
  · refine absurd ?_ hs₁
    rw [hreg]
    exact hs.resume hatt.wires.wired (hatt.accounts.held holder hh).2 answer

theorem Intends.newcomer_ne (hatt : e.Attained) {task : Task} {op : Registry.Operation}
    (hi : e.Intends task op) (hs : e.registry.Serves feed) : op.newcomer? ≠ some feed := by
  intro hn
  cases task with
  | caller id =>
    obtain ⟨finish, hw⟩ := hi
    exact hatt.wires.news id op finish feed hw hn hs
  | watcher f =>
    obtain ⟨o, ho, rfl⟩ := hi
    cases (hatt.accounts.endings f o ho).symm.trans hn
  | dispatcher => exact hi
  | poller id => exact hi

theorem not_concerns_book (hatt : e.Attained) (hh : e.holder = none) {task : Task}
    {op : Registry.Operation} (hi : e.Intends task op) (hc : e.registry.closes op = some feed) :
    ¬(e.book task (e.registry.begin op)).Concerns feed := by
  intro h
  have hs := Registry.serves_of_closes hc
  have hn := hi.newcomer_ne hatt hs
  let x : Engine := { e with registry := (e.registry.begin op).1 }
  have hp : Registry.Places x.registry op.newcomer? (e.registry.begin op) :=
    ⟨fun hw _ => hw, fun f hf => .inl hf, (Registry.places_begin e.registry op).waits⟩
  have ho : x.Orderly := hatt.orderly.extend (l := []) (Nat.le_refl _) rfl rfl rfl (by simp)
  obtain (hs' | ⟨id, op', finish, hw, hn'⟩ | ⟨holder, hholder, -⟩) | hnew :=
    concerns_book (e := x) ho hh hp h
  · exact Registry.not_serves_begin hatt.wires.wired hc hn hs'
  · exact hatt.wires.news id op' finish feed hw hn' hs
  · exact absurd (hh.symm.trans hholder) (by simp)
  · exact hn hnew

theorem ended_operate (hatt : e.Attained) (hopen : e.mail.boxes feed ≠ none) (hh : e.holder = none)
    {task : Task} {op : Registry.Operation} (hi : e.Intends task op)
    (hc : e.registry.closes op = some feed) : (e.operate task op).Ended feed := by
  have hclose : Alike e (e.closeFeed feed) := alike_closeFeed feed
  have hbook := alike_proceed (e := e.closeFeed feed) task (e.registry.begin op)
  have hop : e.operate task op = (e.closeFeed feed).proceed task (e.registry.begin op) := by
    simp only [operate, hc]
    rfl
  rw [hop]
  refine ⟨?_, fun h => ?_, ?_⟩
  · rw [hbook.fresh, fresh_book, hclose.fresh]
    exact hatt.wires.serves_lt feed (Registry.serves_of_closes hc)
  · exact not_concerns_book (hatt.alike hclose) hh (hi.closeFeed feed) hc
      (hbook.concerns_iff.1 h)
  · obtain ⟨box, hbox⟩ := Option.ne_none_iff_exists'.1 hopen
    obtain ⟨o, ho, -⟩ := Option.map_eq_some_iff.1 hbox
    have hshut : (e.closeFeed feed).outlets.get? feed = some { o with feed := o.feed.close } := by
      simp [closeFeed, note, Table.get?_modify, ho]
    have hpass : PassesBy (feed + 1) (e.closeFeed feed) _ :=
      (PassesBy.keptByOperations _).proceed _ task (e.registry.begin op)
    obtain ⟨o', ho', -, hclosed⟩ :=
      hpass.stays Feed.lasting_isClosed (Nat.succ_ne_self feed).symm hshut
    exact ⟨o', ho', hclosed o.feed.isClosed_close⟩

theorem Ended.setDispatcher (h : e.Ended feed) (d : Dispatcher) :
    { e with dispatcher := d }.Ended feed := ⟨h.lt, h.unconcerned, h.shut⟩

theorem ended_of_ends (hatt : e.Attained) (hopens : e.Opens) (h : e.step event = some e')
    (he : e.Ends feed event) : e'.Ended feed := by
  obtain ⟨task, op, rfl, hi, hc⟩ := he
  have hopen := hopens.concerned feed (.inl (Registry.serves_of_closes hc))
  refine of_step h (fun e₁ hr => ?_) fun x hx => hx.setDispatcher _
  cases hr with
  | grant hh hq =>
    let x : Engine := { e with queue := e.queue.erase task }
    have hx : Alike e x := ⟨rfl, rfl, rfl, rfl, rfl, rfl, id⟩
    have hix : x.Intends task op := hi
    rw [enter_of_intends hix]
    exact ended_operate (hatt.alike hx) hopen hh hix hc

theorem queued_of_ends (h : e.step event = some e') (he : e.Ends feed event) (lane : Lane) :
    e'.mail.queued feed lane = e.mail.queued feed lane := by
  obtain ⟨task, op, rfl, hi, -⟩ := he
  have ht : task ≠ .dispatcher := by
    rintro rfl
    exact hi
  refine of_step h (fun x hr => ?_) fun x hx => by rw [mail_startle, hx]
  cases hr with
  | grant hh hq =>
    exact congrArg (Mail.queued · feed lane) (mail_enter { e with queue := e.queue.erase task } ht)

theorem Shift.queued_suffix {m : Mail} (h : e.Shift event m) (he : e.Ended feed) (lane : Lane) :
    m.queued feed lane <:+ e.mail.queued feed lane := by
  obtain ⟨o, ho, hclosed⟩ := he.shut
  cases h with
  | openFeed call =>
    rw [Mail.queued_setBox, if_neg (Nat.ne_of_lt he.lt)]
    exact List.suffix_rfl
  | @deliver parcel g rest og hs hg ha =>
    rw [Mail.queued_setBox, if_neg]
    · exact List.suffix_rfl
    · rintro rfl
      cases Option.some.inj (ho.symm.trans hg)
      rw [hclosed.accepts] at ha
      cases ha
  | @take g l og parcel rest hg hq =>
    rw [Mail.queued_setBox]
    split
    · rename_i hfg
      cases hfg
      rw [Box.queued_setQueue, Mail.queued_of_box (box_of_outlet hg)]
      split
      · rename_i hl
        cases hl
        exact ⟨[parcel], hq.symm⟩
      · exact List.suffix_rfl
    · exact List.suffix_rfl
  | @hangUp g og l hg =>
    rw [Mail.queued_setBox]
    split
    · rename_i hfg
      cases hfg
      rw [Box.queued_hangUp, Mail.queued_of_box (box_of_outlet hg)]
      split
      · exact List.nil_suffix
      · exact List.suffix_rfl
    · exact List.suffix_rfl
  | _ => exact List.suffix_rfl

theorem Ended.step (hatt : e.Attained) (he : e.Ended feed) (h : e.step event = some e') :
    e'.Ended feed := by
  obtain ⟨o, ho, hclosed⟩ := he.shut
  obtain ⟨o', ho', -, hstays⟩ := stays_of_step Feed.lasting_isClosed h he.lt ho
  refine ⟨Nat.lt_of_lt_of_le he.lt (fresh_le_of_step h), fun hc => ?_, o', ho', hstays hclosed⟩
  obtain hc | ⟨hf, -⟩ := (moves_of_step h).concerns hatt hc
  · exact he.unconcerned hc
  · exact absurd he.lt (hf ▸ Nat.lt_irrefl _)

theorem Ended.run {events : List Event} (hatt : e.Attained) (he : e.Ended feed)
    (h : e.run events = some e') :
    e'.Ended feed ∧ ∀ lane, e'.mail.queued feed lane <:+ e.mail.queued feed lane := by
  refine (run_keeps (P := fun x => x.Attained ∧ x.Ended feed ∧
    ∀ lane, x.mail.queued feed lane <:+ e.mail.queued feed lane) ?_
    ⟨hatt, he, fun _ => List.suffix_rfl⟩ h).2
  rintro x event y ⟨hatt, he, hq⟩ hs
  exact ⟨hatt.moves (moves_of_step hs), he.step hatt hs,
    fun lane => ((shift_step hs).queued_suffix he lane).trans (hq lane)⟩

theorem step_watcher_of_stale {s : SetId} (ho : e.outlets.get? feed = some o)
    (hend : o.ending = .detach s (some feed) false) (hs : (e.registry.set s).sink ≠ some feed)
    (h : e.step (.grant (.watcher feed)) = some e') :
    e'.registry = e.registry ∧ e'.holder = none ∧
      e'.journal = .operated o.ending (.ok ()) :: e.journal := by
  obtain ⟨hclose, hbegin⟩ := Registry.begin_detach_of_stale hs false
  refine of_step h (fun x hr => ?_) fun _ => id
  cases hr with
  | grant hh hq =>
    have hi : { e with queue := e.queue.erase (.watcher feed) }.Intends (.watcher feed)
        (.detach s (some feed) false) := ⟨o, ho, hend⟩
    rw [enter_of_intends hi]
    simp only [operate, hclose, hbegin, proceed, finish, ho]
    exact ⟨rfl, hh, rfl⟩

theorem step_cancel (h : e.step (.cancel feed) = some e') :
    e'.registry = e.registry ∧ e'.holder = e.holder ∧ e'.journal = e.journal := by
  refine of_step h (fun x hr => ?_) fun _ => id
  cases hr with
  | cancel h =>
    unfold cancel? at h
    split at h <;> cases h <;> exact ⟨rfl, rfl, rfl⟩

theorem ending_of_step_attach {s : SetId} {values faults : Nat} {refusal : Option String}
    (h : e.step (.call (.attach s values faults refusal)) = some e') :
    e.fresh < e'.fresh ∧ ∃ o, e'.outlets.get? e.fresh = some o ∧
      o.ending = .detach s (some e.fresh) false := by
  refine of_step h (fun x hr => ?_) fun _ => id
  cases hr with
  | call hp =>
    refine ⟨Nat.lt_succ_self _, ⟨.ofCapacities values faults, .detach s (some e.fresh) false,
      .expected false⟩, ?_, rfl⟩
    exact Table.get?_put_self _ _ _

variable {capacity : Nat} {timer : Timer} {events : List Event} {x y z : Engine}

theorem Occurs.attained {n : Nat} (h : Occurs capacity timer events n event x) : x.Attained :=
  (Attained.start capacity timer).run h.2

theorem Occurs.opens {n : Nat} (h : Occurs capacity timer events n event x) : x.Opens :=
  (Opens.start capacity timer).run (.start capacity timer) h.2

theorem Occurs.followed {n k : Nat} (ho : Occurs capacity timer events n event x) (hk : n < k)
    (h : (start capacity timer).run (events.take k) = some z) :
    ∃ y later, x.step event = some y ∧ y.run later = some z := by
  obtain ⟨hn, hx⟩ := ho
  have hsplit : events.take k = events.take n ++ event :: (events.take k).drop (n + 1) := by
    have hget : (events.take k)[n]? = some event := by
      rw [List.getElem?_take_of_lt hk, hn]
    obtain ⟨hlt, rfl⟩ := List.getElem?_eq_some_iff.1 hget
    have htake : events.take n = (events.take k).take n := by
      rw [List.take_take, Nat.min_eq_left (Nat.le_of_lt hk)]
    rw [← List.drop_eq_getElem_cons hlt, htake, List.take_append_drop]
  rw [hsplit, run_append, hx, Option.bind_some] at h
  obtain ⟨y, hy, hr⟩ := Option.bind_eq_some_iff.1 h
  exact ⟨y, _, hy, hr⟩

/-- The registry stops serving a feed, in the event with this number. -/
def TearsDown (capacity : Nat) (timer : Timer) (events : List Event) (n : Nat) (feed : FeedId) :
    Prop :=
  ∃ event x y, Occurs capacity timer events n event x ∧ x.step event = some y ∧
    x.registry.Serves feed ∧ ¬y.registry.Serves feed

theorem Occurs.after_ends {n k : Nat} (ho : Occurs capacity timer events n event x)
    (hs : x.step event = some y) (he : x.Ends feed event) (hk : n < k)
    (h : (start capacity timer).run (events.take k) = some z) :
    z.Ended feed ∧ ∀ lane, z.mail.queued feed lane <:+ x.mail.queued feed lane := by
  obtain ⟨y', later, hs', hr⟩ := ho.followed hk h
  cases hs.symm.trans hs'
  have hend := ended_of_ends ho.attained ho.opens hs he
  obtain ⟨hz, hq⟩ := hend.run (ho.attained.moves (moves_of_step hs)) hr
  exact ⟨hz, fun lane => queued_of_ends hs he lane ▸ hq lane⟩

theorem TearsDown.not_lt {n m : Nat} (hn : TearsDown capacity timer events n feed)
    (hm : TearsDown capacity timer events m feed) : ¬n < m := by
  intro hlt
  obtain ⟨event, x, y, ho, hs, hserves, hgone⟩ := hn
  obtain ⟨event', x', y', ho', -, hserves', -⟩ := hm
  have he := ends_of_step ho.attained hs hserves hgone
  exact (ho.after_ends hs he hlt ho'.2).1.unconcerned (.inl hserves')

/-- In every run: a sink is cancelled in vain when it is not the sink of the set to which it was
attached, that is, nothing in the registry changes and the bus is not called. No feed is torn down
twice. It is torn down by the operations that replace it, cancel it or close its set, and by no
others; both its channels are closed then, and what is queued on them later was queued before, also
if the dispatcher still has the feed among its targets. -/
theorem run_ends_subscriptions (h : (start capacity timer).run events = some e) :
    (∀ n s values faults refusal x,
      Occurs capacity timer events n (.call (.attach s values faults refusal)) x →
      (e.registry.set s).sink ≠ some x.fresh →
      (∀ e', e.step (.cancel x.fresh) = some e' →
        e'.registry = e.registry ∧ e'.holder = e.holder ∧ e'.journal = e.journal) ∧
      ∀ e', e.step (.grant (.watcher x.fresh)) = some e' →
        e'.registry = e.registry ∧ e'.holder = none ∧
          e'.journal = .operated (.detach s (some x.fresh) false) (.ok ()) :: e.journal) ∧
    (∀ feed n m, TearsDown capacity timer events n feed → TearsDown capacity timer events m feed →
      n = m) ∧
    ∀ n event x y feed, Occurs capacity timer events n event x → x.step event = some y →
      (x.Ends feed event ↔ x.registry.Serves feed ∧ ¬y.registry.Serves feed) ∧
      (x.Ends feed event → ∀ k z, n < k → (start capacity timer).run (events.take k) = some z →
        (∃ o, z.outlets.get? feed = some o ∧ o.feed.IsClosed) ∧ ¬z.registry.Serves feed ∧
          ∀ lane, z.mail.queued feed lane <:+ x.mail.queued feed lane) := by
  refine ⟨fun n s values faults refusal x ho hs => ⟨fun e' => step_cancel, fun e' hstep => ?_⟩,
    fun feed n m hn hm => Nat.le_antisymm (Nat.not_lt.1 (hm.not_lt hn))
      (Nat.not_lt.1 (hn.not_lt hm)), fun n event x y feed ho hs => ⟨⟨fun he => ?_, fun he =>
        ends_of_step ho.attained hs he.1 he.2⟩, fun he k z hk hz => ?_⟩⟩
  · obtain ⟨hlt, -⟩ := List.getElem?_eq_some_iff.1 ho.1
    obtain ⟨y, later, hy, hr⟩ := ho.followed hlt (List.take_length (l := events) ▸ h)
    obtain ⟨hfresh, o, hout, hend⟩ := ending_of_step_attach hy
    obtain ⟨o', hout', hend', -⟩ := stays_of_run Feed.lasting_isClosed hr hfresh hout
    rw [hend] at hend'
    exact hend' ▸ step_watcher_of_stale hout' hend' hs hstep
  · obtain ⟨task, op, -, -, hc⟩ := id he
    exact ⟨Registry.serves_of_closes hc,
      fun hy => (ended_of_ends ho.attained ho.opens hs he).unconcerned (.inl hy)⟩
  · obtain ⟨hend, hq⟩ := ho.after_ends hs he hk hz
    exact ⟨hend.shut, fun hserves => hend.unconcerned (.inl hserves), hq⟩

/-- Two sinks are among the targets of an update when one of them is replaced. Its cancellation
comes later. -/
def replacing : List Event :=
  [.openSet, .openSet, .call (.add 0 "a.service"), .grant (.caller 2), .matchReturned (.ok ()),
    .call (.add 1 "a.service"), .grant (.caller 3),
    .call (.attach 0 4 4 none), .grant (.caller 4), .call (.attach 1 4 4 none), .grant (.caller 5),
    .signal (.ok (.unitNew "a.service" "/a")), .takeSignal, .grant .dispatcher,
    .call (.attach 1 4 4 none), .grant (.caller 6), .deliver, .deliver, .deliver, .cancel 5]

/-- The replaced sink gets nothing, and its cancellation leaves the new one alone. -/
theorem run_ends_subscriptions_replacing :
    ∃ e x, (start 1 .exact).run replacing = some e ∧
      Occurs 1 .exact replacing 15 (.grant (.caller 6)) x ∧
      (∃ parcel, x.dispatcher.stage = .sending parcel [4, 5]) ∧
      (e.mail.queued 4 .values).length = 1 ∧ e.mail.queued 5 .values = [] ∧
      ¬e.registry.Serves 5 ∧
      ∃ e', e.step (.grant (.watcher 5)) = some e' ∧ (e'.registry.set 1).sink = some 6 ∧
        e'.registry = e.registry ∧
        e'.journal = .operated (.detach 1 (some 5) false) (.ok ()) :: e.journal := by
  obtain ⟨e, hr, hsink, hlen, e', he'⟩ : ∃ e, (start 1 .exact).run replacing = some e ∧
      (e.registry.set 1).sink = some 6 ∧ (e.mail.queued 4 .values).length = 1 ∧
      ∃ e', e.step (.grant (.watcher 5)) = some e' :=
    ⟨((start 1 .exact).run replacing).get (by decide +kernel), (Option.some_get _).symm,
      by decide +kernel, by decide +kernel, Option.isSome_iff_exists.1 (by decide +kernel)⟩
  obtain ⟨w, hw, hfresh⟩ : ∃ w, Occurs 1 .exact replacing 9 (.call (.attach 1 4 4 none)) w ∧
      w.fresh = 5 :=
    ⟨((start 1 .exact).run (replacing.take 9)).get (by decide +kernel),
      ⟨rfl, (Option.some_get _).symm⟩, by decide +kernel⟩
  obtain ⟨x, hx, hstage, hends, hqueued, y, hy⟩ :
      ∃ x, Occurs 1 .exact replacing 15 (.grant (.caller 6)) x ∧
        x.dispatcher.stage.targets? = some [4, 5] ∧ x.Ends 5 (.grant (.caller 6)) ∧
        (x.mail.queued 5 .values).isEmpty = true ∧ ∃ y, x.step (.grant (.caller 6)) = some y :=
    ⟨((start 1 .exact).run (replacing.take 15)).get (by decide +kernel),
      ⟨rfl, (Option.some_get _).symm⟩, by decide +kernel, by decide +kernel, by decide +kernel,
      Option.isSome_iff_exists.1 (by decide +kernel)⟩
  obtain ⟨hstale, -, hend⟩ := run_ends_subscriptions hr
  have hstale := hstale 9 1 4 4 none w hw
  rw [hfresh] at hstale
  obtain ⟨hreg, -, hj⟩ := (hstale (by simp [hsink])).2 e' he'
  have hrun : (start 1 .exact).run (replacing.take replacing.length) = some e := hr
  obtain ⟨-, hgone, hq⟩ := (hend 15 _ x y 5 hx hy).2 hends replacing.length e (by decide) hrun
  refine ⟨e, x, hr, hx, Stage.targets?_eq_some_iff.1 hstage, hlen, ?_, hgone, e', he',
    hreg ▸ hsink, hreg, hj⟩
  exact List.suffix_nil.1 (List.isEmpty_iff.1 hqueued ▸ hq .values)

end Engine

end UnitControl
