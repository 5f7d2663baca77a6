import UnitControl.Engine.Step
import UnitControl.Proofs.Dispatcher.Slots

/-!
# What is aside from calls, signals and answers

Much of what a step does concerns only deliveries, watches, pollers and the queue for the registry.
Two engines are alike if they agree in all the rest: who waits for what, the registry, what the
dispatcher has before it, and the milestones of the journal.
-/

namespace UnitControl

/-- What the dispatcher has before it, and the call that it has out. -/
structure Desk where
  commands : List Command
  signals : List (Except Error Signal)
  ended : Bool
  pending : Table String CallerId
  call? : Option (CallerId × JobRequest)
  stopped : Bool

def Dispatcher.desk (d : Dispatcher) : Desk :=
  ⟨d.commands, d.signals, d.ended, d.pending, d.stage.call?, d.hasStopped⟩

/-- The entries that tell of requests, calls, signals and answers. -/
def Entry.isMilestone : Entry → Bool
  | .operated .. | .collected .. | .delivered .. | .skipped .. | .closed _ | .listed .. => false
  | .asked (.list _) => false
  | _ => true

namespace Engine

/-- The milestones of the journal, the latest first. -/
def record (e : Engine) : List Entry := e.journal.filter Entry.isMilestone

/-- No task that ends a subscription finds a place for a feed. -/
def EndingsRelease (e : Engine) : Prop :=
  ∀ feed o, e.outlets.get? feed = some o → o.ending.newcomer? = none

structure Alike (e e' : Engine) : Prop where
  fresh : e'.fresh = e.fresh
  registry : e'.registry = e.registry
  holder : e'.holder = e.holder
  callers : e'.callers = e.callers
  desk : e'.dispatcher.desk = e.dispatcher.desk
  record : e'.record = e.record
  endings : e.EndingsRelease → e'.EndingsRelease

namespace Alike

variable {e e' e'' : Engine}

theorem refl (e : Engine) : Alike e e := ⟨rfl, rfl, rfl, rfl, rfl, rfl, id⟩

theorem trans (h : Alike e e') (h' : Alike e' e'') : Alike e e'' where
  fresh := h'.fresh.trans h.fresh
  registry := h'.registry.trans h.registry
  holder := h'.holder.trans h.holder
  callers := h'.callers.trans h.callers
  desk := h'.desk.trans h.desk
  record := h'.record.trans h.record
  endings := h'.endings ∘ h.endings

theorem pending (h : Alike e e') : e'.dispatcher.pending = e.dispatcher.pending :=
  congrArg Desk.pending h.desk

theorem commands (h : Alike e e') : e'.dispatcher.commands = e.dispatcher.commands :=
  congrArg Desk.commands h.desk

theorem signals (h : Alike e e') : e'.dispatcher.signals = e.dispatcher.signals :=
  congrArg Desk.signals h.desk

theorem call (h : Alike e e') : e'.dispatcher.stage.call? = e.dispatcher.stage.call? :=
  congrArg Desk.call? h.desk

theorem stopped (h : Alike e e') : e'.dispatcher.hasStopped = e.dispatcher.hasStopped :=
  congrArg Desk.stopped h.desk

end Alike

variable {e e' : Engine}

theorem record_note (e : Engine) (entry : Entry) :
    (e.note entry).record = if entry.isMilestone then entry :: e.record else e.record := by
  simp only [record, note, List.filter_cons]

theorem filterMap_record {α : Type} {f : Entry → Option α}
    (hf : ∀ entry, entry.isMilestone = false → f entry = none) (e : Engine) :
    e.record.filterMap f = e.journal.filterMap f := by
  rw [record, List.filterMap_filter]
  congr 1
  funext entry
  cases h : entry.isMilestone with
  | true => rfl
  | false => exact (hf entry h).symm

theorem alike_note {entry : Entry} (h : entry.isMilestone = false) : Alike e (e.note entry) where
  fresh := rfl
  registry := rfl
  holder := rfl
  callers := rfl
  desk := rfl
  record := by simp [record_note, h]
  endings := id

theorem alike_enlist (task : Task) : Alike e (e.enlist task) := ⟨rfl, rfl, rfl, rfl, rfl, rfl, id⟩

theorem EndingsRelease.put (h : e.EndingsRelease) (feed : FeedId) {o : Outlet}
    (ho : o.ending.newcomer? = none) :
    { e with outlets := e.outlets.put feed o }.EndingsRelease := by
  intro f o' hf
  rw [Table.get?_put] at hf
  split at hf
  · cases hf
    exact ho
  · exact h f o' hf

theorem alike_putOutlet {feed : FeedId} {o : Outlet} (h : e.outlets.get? feed = some o)
    (o' : Outlet) (ho : o'.ending = o.ending) :
    Alike e { e with outlets := e.outlets.put feed o' } where
  fresh := rfl
  registry := rfl
  holder := rfl
  callers := rfl
  desk := rfl
  record := rfl
  endings he := he.put feed (ho ▸ he feed o h)

theorem alike_modifyOutlet (feed : FeedId) {f : Outlet → Outlet}
    (hf : ∀ o, (f o).ending = o.ending) :
    Alike e { e with outlets := e.outlets.modify feed f } := by
  unfold Table.modify
  cases h : e.outlets.get? feed with
  | none => exact .refl e
  | some o => exact alike_putOutlet h (f o) (hf o)

theorem alike_setWatch (feed : FeedId) (w : Watch) : Alike e (e.setWatch feed w) :=
  alike_modifyOutlet feed fun _ => rfl

theorem alike_closeFeed (feed : FeedId) : Alike e (e.closeFeed feed) := by
  have h := alike_modifyOutlet (e := e) feed (f := fun o => { o with feed := o.feed.close })
  exact (h fun _ => rfl).trans (alike_note rfl)

theorem alike_abandon (feed : Option FeedId) : Alike e (e.abandon feed) := by
  cases feed with
  | none => exact .refl e
  | some f => exact (alike_setWatch f .over).trans (alike_closeFeed f)

theorem alike_startWatch (feed : FeedId) : Alike e (e.startWatch feed) := by
  unfold startWatch
  split
  · exact (alike_setWatch feed _).trans (alike_enlist _)
  · exact alike_setWatch feed _
  · exact .refl e

theorem alike_openFeed (feed : FeedId) (values faults : Nat) (ending : Registry.Operation)
    (h : ending.newcomer? = none) : Alike e (e.openFeed feed values faults ending) where
  fresh := rfl
  registry := rfl
  holder := rfl
  callers := rfl
  desk := rfl
  record := rfl
  endings he := he.put feed h

/-- The dispatcher may change its stage as long as it neither begins nor ends a call, nor stops. -/
theorem alike_setDispatcher {d : Dispatcher} (h : d.desk = e.dispatcher.desk) :
    Alike e { e with dispatcher := d } :=
  ⟨rfl, rfl, rfl, rfl, h, rfl, id⟩

theorem desk_rouse (d : Dispatcher) : d.rouse.desk = d.desk := by
  obtain ⟨_, _, _, _, _, _, stage⟩ := d
  cases stage <;> rfl

theorem desk_startle (d : Dispatcher) : d.startle.desk = d.desk := desk_rouse d

theorem desk_arm (d : Dispatcher) : d.arm.desk = d.desk := rfl

theorem alike_askTargets : Alike e e.askTargets := by
  unfold askTargets
  split
  · exact alike_enlist _
  · exact .refl e

theorem alike_putPoller (id : PollerId) (p : Poller) : Alike e (e.putPoller id p) :=
  ⟨rfl, rfl, rfl, rfl, rfl, rfl, fun h => h⟩

theorem alike_afterPoll (id : PollerId) (p : Poller) : Alike e (e.afterPoll id p) := by
  unfold afterPoll
  dsimp only
  split
  · exact (alike_putPoller id p).trans (alike_note rfl)
  · split
    · exact (alike_putPoller id p).trans (alike_enlist _)
    · exact alike_putPoller id p

theorem alike_stepPoller {id : PollerId} {event : Poller.Event}
    (h : e.stepPoller? id event = some e') : Alike e e' := by
  unfold stepPoller? at h
  split at h
  · obtain ⟨p, -, rfl⟩ := Option.map_eq_some_iff.1 h
    exact alike_afterPoll id p
  · cases h

theorem alike_onPoller {id : PollerId} {event : Poller.Event}
    (h : e.onPoller? id event = some e') : Alike e e' := by
  unfold onPoller? at h
  split at h
  · obtain ⟨p, -, rfl⟩ := Option.map_eq_some_iff.1 h
    exact alike_putPoller id p
  · cases h

theorem alike_onFeed {feed : FeedId} {lane : Lane} {f : Feed Update → Option (Feed Update)}
    (h : e.onFeed? feed lane f = some e') : Alike e e' := by
  unfold onFeed? at h
  split at h
  · rename_i o ho
    obtain ⟨feed', -, rfl⟩ := Option.map_eq_some_iff.1 h
    refine (alike_putOutlet ho { o with feed := feed' } rfl).trans (alike_setDispatcher ?_)
    split
    · exact desk_rouse _
    · rfl
  · cases h

theorem alike_cancel {feed : FeedId} (h : e.cancel? feed = some e') : Alike e e' := by
  unfold cancel? at h
  split at h
  · cases h
    exact alike_setWatch feed _
  · cases h
    exact (alike_setWatch feed _).trans (alike_enlist _)
  · cases h

theorem desk_of_between {d d' : Dispatcher} {s s' : Stage} (hs : d.stage = s) (hc : s.call? = none)
    (hc' : s'.call? = none) (hn : s ≠ .stopped) (hn' : s' ≠ .stopped)
    (hd : d' = { d with stage := s' }) : d'.desk = d.desk := by
  subst hd
  have h (x : Dispatcher) (hx : x.stage ≠ .stopped) : x.hasStopped = false := by
    unfold Dispatcher.hasStopped
    split
    · rename_i he
      exact absurd he hx
    · rfl
  simp only [Dispatcher.desk, hs, hc, hc', h d (hs ▸ hn)]
  rw [h _ hn']

theorem alike_deliver {parcel : Parcel Update} {targets : List FeedId}
    (h : e.dispatcher.stage = .sending parcel targets) : Alike e (e.deliver parcel targets) := by
  have hd (s : Stage) (hs : s.call? = none) (hn : s ≠ .stopped) :
      { e.dispatcher with stage := s }.desk = e.dispatcher.desk :=
    desk_of_between h rfl hs (by simp) hn rfl
  cases targets with
  | nil => exact alike_setDispatcher (hd .idle rfl (by simp))
  | cons feed rest =>
    have hsend := hd (.sending parcel rest) rfl (by simp)
    unfold deliver
    dsimp only
    split
    · exact (alike_note rfl).trans (alike_setDispatcher hsend)
    · rename_i o ho
      split
      · have hp := alike_putOutlet ho { o with feed := o.feed.send parcel } rfl
        refine (hp.trans (alike_note rfl)).trans (alike_setDispatcher ?_)
        split
        · exact hd (.blocked parcel feed rest false) rfl (by simp)
        · exact hsend
      · exact (alike_note rfl).trans (alike_setDispatcher hsend)

theorem alike_look (h : e.look? = some e') : Alike e e' := by
  unfold look? at h
  split at h
  · rename_i hs
    cases h
    refine alike_setDispatcher (desk_of_between hs rfl ?_ (by simp) ?_ rfl)
    · split <;> simp [Stage.call?]
    · split <;> simp
  · cases h

theorem alike_unblock (h : e.unblock? = some e') : Alike e e' := by
  unfold unblock? at h
  split at h
  · rename_i hs
    split at h
    · cases h
    · cases h
      exact alike_setDispatcher (desk_of_between hs rfl rfl (by simp) (by simp) rfl)
  · cases h

theorem contains_congr (h : Alike e e') (id : CallerId) :
    e'.callers.contains id = e.callers.contains id := by rw [h.callers]

theorem Alike.answer (h : Alike e e') (id : CallerId) (a : Answer) :
    Alike (e.answer id a) (e'.answer id a) := by
  unfold Engine.answer
  rw [contains_congr h]
  split
  · exact
      { fresh := h.fresh
        registry := h.registry
        holder := h.holder
        callers := congrArg (·.erase id) h.callers
        desk := h.desk
        record := by
          rw [record_note, record_note]
          exact congrArg (Entry.answered id a :: ·) h.record
        endings := h.endings }
  · exact h

theorem Alike.await (h : Alike e e') (id : CallerId) (w : Wait) :
    Alike (e.await id w) (e'.await id w) :=
  ⟨h.fresh, h.registry, h.holder, congrArg (·.put id w) h.callers, h.desk, h.record, h.endings⟩

end Engine

end UnitControl
