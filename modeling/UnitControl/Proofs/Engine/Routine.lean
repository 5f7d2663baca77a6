import UnitControl.Proofs.Engine.Move
import UnitControl.Proofs.Engine.Sidelines
import UnitControl.Proofs.Poller.Lanes

/-!
# Routine

Most of what an engine does leaves the handles and the clock alone, and notes nothing of the end of
an operation or of a poller that asks for a listing.
-/

namespace UnitControl

/-- The entry tells neither of the end of an operation nor of a poller that asks for a listing. -/
def Entry.isRoutine : Entry → Bool
  | .operated .. | .asked (.list (.poller _)) => false
  | _ => true

/-- The events in which neither the handles nor the clock nor a poller has its turn, and nobody the
registry. -/
def Event.isRoutine : Event → Bool
  | .call (.close _) | .openSet | .dropSet _ | .dropHandle | .tick .. | .poll .. | .matchReturned _
  | .listReturned (.poller _) _ | .grant _ | .unblockPoller _ | .wakePoller _ => false
  | _ => true

namespace Engine

/-- Which handles are held, and what time it is. -/
def bearings (e : Engine) : Bool × List SetId × Clock := (e.handle, e.sets, e.clock)

/-- What holds from an engine to a later one as long as the bearings are the same and only routine
entries are noted. -/
structure KeptByRoutine (R : Engine → Engine → Prop) : Prop where
  trans : ∀ {e e' e''}, R e e' → R e' e'' → R e e''
  of_eq : ∀ {e e'}, e'.bearings = e.bearings → e'.journal = e.journal → R e e'
  note : ∀ e {entry}, entry.isRoutine = true → R e (e.note entry)

namespace KeptByRoutine

variable {R : Engine → Engine → Prop} {e e' : Engine}

theorem refl (hR : KeptByRoutine R) (e : Engine) : R e e := hR.of_eq rfl rfl

theorem answer (hR : KeptByRoutine R) (e : Engine) (id : CallerId) (a : Answer) :
    R e (e.answer id a) := by
  unfold Engine.answer
  split
  · have hx : R e { e with callers := e.callers.erase id, leaving := e.leaving ++ [id] } :=
      hR.of_eq rfl rfl
    exact hR.trans hx (hR.note _ rfl)
  · exact hR.refl e

theorem dispatch (hR : KeptByRoutine R) (e : Engine) (r : Dispatcher × List Reply) :
    R e (e.dispatch r) :=
  answerAll_induct (I := R e) (hR.of_eq rfl rfl) fun _ _ _ h => hR.trans h (hR.answer _ _ _)

theorem closeFeed (hR : KeptByRoutine R) (e : Engine) (feed : FeedId) : R e (e.closeFeed feed) := by
  let x : Engine :=
    { e with outlets := e.outlets.modify feed fun o => { o with feed := o.feed.close } }
  have hx : R e x := hR.of_eq rfl rfl
  exact hR.trans hx (hR.note x rfl)

theorem conclusions (hR : KeptByRoutine R) : KeptByConclusions R where
  refl := hR.refl
  trans := hR.trans
  answer := hR.answer
  await _ _ _ := hR.of_eq rfl rfl
  enlist _ _ _ := hR.of_eq rfl rfl
  setWatch _ _ _ := hR.of_eq rfl rfl
  closeFeed := hR.closeFeed

theorem operations (hR : KeptByRoutine R)
    (hend : ∀ e op result, R e (e.note (.operated op result))) : KeptByOperations R where
  toKeptByConclusions := hR.conclusions
  register _ _ := hR.of_eq rfl rfl
  hold _ _ := hR.of_eq rfl rfl
  operated := hend
  asked _ _ := hR.note _ rfl

theorem enter (hR : KeptByRoutine R) (e : Engine) (task : Task)
    (hop : ∀ op, e.Intends task op → R e (e.operate task op)) : R e (e.enter task) := by
  cases task with
  | caller id =>
    simp only [Engine.enter]
    split
    · exact hR.answer e _ _
    · rename_i op finish hw
      exact hop op ⟨finish, hw⟩
    · exact hR.refl e
  | watcher feed =>
    simp only [Engine.enter]
    split
    · rename_i o ho
      exact hop o.ending ⟨o, ho, rfl⟩
    · exact hR.refl e
  | dispatcher =>
    simp only [Engine.enter]
    split
    · rename_i parcel _
      let stage := Stage.sending parcel (e.registry.targets parcel)
      let x : Engine := { e with dispatcher := { e.dispatcher with stage } }
      have hx : R e x := hR.of_eq rfl rfl
      exact hR.trans hx (hR.note x rfl)
    · exact hR.refl e
  | poller id =>
    simp only [Engine.enter]
    split
    · split <;> exact hR.of_eq rfl rfl
    · exact hR.refl e

theorem await (hR : KeptByRoutine R) (e : Engine) (id : CallerId) (w : Wait) : R e (e.await id w) :=
  hR.of_eq rfl rfl

theorem send (hR : KeptByRoutine R) (e : Engine) (c : Command) : R e (e.send c) := by
  let x : Engine := { e with dispatcher := e.dispatcher.enqueue c }
  have hx : R e x := hR.of_eq rfl rfl
  exact hR.trans hx (hR.note x rfl)

theorem submit (hR : KeptByRoutine R) (e : Engine) (id : CallerId) (request : JobRequest)
    (limit : Option (Nat × Error)) : R e (e.submit id request limit) := by
  unfold Engine.submit
  split
  · exact hR.note e rfl
  · exact hR.trans (hR.await e id _) (hR.send _ _)

theorem submitWithin (hR : KeptByRoutine R) (e : Engine) (id : CallerId) (request : JobRequest)
    (d : Duration) (ago : Nat) (looks : Bool) :
    R e (e.submitWithin id request d ago looks) := by
  obtain ⟨err, -, h⟩ | ⟨deadline, h⟩ := submitWithin_cases e id request d ago looks
  · rw [h]
    exact hR.note e rfl
  · rw [h]
    exact hR.submit e id request _

theorem operateOn (hR : KeptByRoutine R) (e : Engine) (id : CallerId) (unit : String)
    (op : String → Registry.Operation) : R e (e.operateOn id unit op) := by
  unfold Engine.operateOn
  split
  · exact hR.of_eq rfl rfl
  · exact hR.note e rfl

theorem call (hR : KeptByRoutine R) (e : Engine) (id : CallerId) {call : Call}
    (hclose : ∀ s, call ≠ .close s) : R e (e.call id call) := by
  cases call with
  | submit request limit =>
    cases limit with
    | none => exact hR.submit e id request none
    | some d => exact hR.submitWithin e id request d 0 false
  | submitLate request d ago looks => exact hR.submitWithin e id request d ago looks
  | job kind unit mode =>
    simp only [Engine.call]
    split
    · exact hR.submit e id _ _
    · exact hR.note e rfl
  | pendingJobs =>
    simp only [Engine.call]
    split
    · exact hR.note e rfl
    · exact hR.trans (hR.await e id _) (hR.send _ _)
  | listUnits => exact hR.trans (hR.await e id .listing) (hR.note _ rfl)
  | add s unit | remove s unit => exact hR.operateOn e id unit _
  | contains s unit | references unit =>
    simp only [Engine.call]
    split
    · exact hR.of_eq rfl rfl
    · exact hR.note e rfl
  | members s | attach s values faults refusal => exact hR.of_eq rfl rfl
  | close s => exact absurd rfl (hclose s)
  | subscribe unit values refusal =>
    have hopen : R e (e.openFeed id values 0 (.unsubscribe id)) := hR.of_eq rfl rfl
    simp only [Engine.call]
    split
    · exact hR.of_eq rfl rfl
    · exact hR.trans (hR.trans hopen (hR.conclusions.abandon _ _)) (hR.note _ rfl)

theorem noteCall (hR : KeptByRoutine R) (e : Engine) : R e e.noteCall := by
  unfold Engine.noteCall
  split
  · exact hR.note e rfl
  · exact hR.refl e

theorem askTargets (hR : KeptByRoutine R) (e : Engine) : R e e.askTargets := by
  unfold Engine.askTargets
  split <;> exact hR.of_eq rfl rfl

theorem deliver (hR : KeptByRoutine R) (e : Engine) (parcel : Parcel Update)
    (targets : List FeedId) : R e (e.deliver parcel targets) := by
  unfold Engine.deliver
  split
  · exact hR.of_eq rfl rfl
  · rename_i feed rest
    have hskip : R e (e.note (.skipped feed parcel)) := hR.note e rfl
    dsimp only
    split
    · exact hR.trans hskip (hR.of_eq rfl rfl)
    · rename_i o _
      split
      · let x : Engine :=
          { e with outlets := e.outlets.put feed { o with feed := o.feed.send parcel } }
        have hx : R e x := hR.of_eq rfl rfl
        have hn : R x (x.note (.delivered feed parcel)) := hR.note x rfl
        exact hR.trans hx (hR.trans hn (hR.of_eq rfl rfl))
      · exact hR.trans hskip (hR.of_eq rfl rfl)

theorem cancel (hR : KeptByRoutine R) {feed : FeedId} (h : e.cancel? feed = some e') : R e e' := by
  unfold cancel? at h
  split at h <;> cases h <;> exact hR.of_eq rfl rfl

theorem onFeed (hR : KeptByRoutine R) {feed : FeedId} {lane : Lane}
    {f : Feed Update → Option (Feed Update)} (h : e.onFeed? feed lane f = some e') : R e e' := by
  unfold onFeed? at h
  split at h
  · obtain ⟨f', -, rfl⟩ := Option.map_eq_some_iff.1 h
    exact hR.of_eq rfl rfl
  · cases h

theorem onPoller (hR : KeptByRoutine R) {id : PollerId} {event : Poller.Event}
    (h : e.onPoller? id event = some e') : R e e' := by
  unfold onPoller? at h
  split at h
  · obtain ⟨q, -, rfl⟩ := Option.map_eq_some_iff.1 h
    exact hR.of_eq rfl rfl
  · cases h

theorem afterPoll (hR : KeptByRoutine R) (e : Engine) (id : PollerId) (p : Poller)
    (hask : p.stage = .listing → ∀ x, R x (x.note (.asked (.list (.poller id))))) :
    R e (e.afterPoll id p) := by
  have hput : R e (e.putPoller id p) := hR.of_eq rfl rfl
  unfold Engine.afterPoll
  dsimp only
  split
  · rename_i hp
    exact hR.trans hput (hask (p.isListing_iff.1 hp) _)
  · split
    · exact hR.of_eq rfl rfl
    · exact hput

theorem stepPoller (hR : KeptByRoutine R) {id : PollerId} {event : Poller.Event}
    (h : e.stepPoller? id event = some e')
    (hask : ∀ x, R x (x.note (.asked (.list (.poller id))))) : R e e' := by
  unfold stepPoller? at h
  split at h
  · obtain ⟨q, -, rfl⟩ := Option.map_eq_some_iff.1 h
    exact hR.afterPoll e id q fun _ => hask
  · cases h

theorem look (hR : KeptByRoutine R) (h : e.look? = some e') : R e e' := by
  unfold look? at h
  split at h <;> cases h
  exact hR.of_eq rfl rfl

theorem unblock (hR : KeptByRoutine R) (h : e.unblock? = some e') : R e e' := by
  unfold unblock? at h
  split at h
  · split at h <;> cases h
    exact hR.of_eq rfl rfl
  · cases h

theorem reaction (hR : KeptByRoutine R) {event : Event} (h : e.Reaction event e')
    (hevent : event.isRoutine = true) : R e e' := by
  cases h with
  | call h =>
    let x : Engine := { e with fresh := e.fresh + 1 }
    have hx : R e x := hR.of_eq rfl rfl
    refine hR.trans hx (hR.call x _ fun s hs => ?_)
    subst hs
    cases hevent
  | expire hw ht => exact hR.answer e _ _
  | cancel h => exact hR.cancel h
  | takeFeed h | hangUpFeed h => exact hR.onFeed h
  | takePoller h | hangUpPoller h => exact hR.onPoller h
  | @signal item h =>
    let x : Engine := { e with dispatcher := e.dispatcher.receive item }
    have hx : R e x := hR.of_eq rfl rfl
    exact hR.trans hx (hR.note x rfl)
  | jobReturned hs hr => exact hR.trans (hR.note e rfl) (hR.dispatch _ _)
  | listed result hw => exact hR.answer e _ _
  | takeCommand hr => exact hR.trans (hR.dispatch e _) (hR.noteCall _)
  | takeSignal hi hr =>
    exact hR.trans (hR.trans (hR.note e rfl) (hR.dispatch _ _)) (hR.askTargets _)
  | deliver hs => exact hR.deliver e _ _
  | look h => exact hR.look h
  | unblock h => exact hR.unblock h
  | stop h => exact hR.trans (hR.note e rfl) (hR.dispatch _ _)
  | leave h => exact hR.of_eq rfl rfl
  | arm => exact hR.of_eq rfl rfl
  | endSignals => exact hR.of_eq rfl rfl
  | _ => cases hevent

end KeptByRoutine

/-- All that has been noted in between is of one kind. -/
def Notes (q : Entry → Prop) (e e' : Engine) : Prop :=
  ∃ added, e'.journal = added ++ e.journal ∧ ∀ entry ∈ added, q entry

theorem Notes.keptByRoutine {q : Entry → Prop} (hq : ∀ entry, entry.isRoutine = true → q entry) :
    KeptByRoutine (Notes q) where
  trans := by
    rintro e e' e'' ⟨l, hl, hql⟩ ⟨l', hl', hql'⟩
    refine ⟨l' ++ l, by rw [hl', hl, List.append_assoc], fun entry hm => ?_⟩
    exact (List.mem_append.1 hm).elim (hql' entry) (hql entry)
  of_eq _ hj := ⟨[], hj, by simp⟩
  note e entry h := ⟨[entry], rfl, by simpa using hq entry h⟩

end Engine

end UnitControl
