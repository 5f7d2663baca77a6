import UnitControl.Proofs.Engine.Polling
import UnitControl.Proofs.Engine.Stall

/-!
# The line for the registry

A task that wants the registry has it, or has one place in the line for it. Nobody else is in the
line, and whoever has the registry while a call is out is a caller with an operation or a watcher.
-/

namespace UnitControl

/-- A caller waits for something that is done in the registry. -/
def Wait.isForRegistry : Wait → Bool
  | query _ | operation .. => true
  | _ => false

def Watch.isEnding : Watch → Bool
  | ending => true
  | _ => false

namespace Engine

/-- What the task of a subscription is doing. -/
def watch? (e : Engine) (feed : FeedId) : Option Watch := (e.outlets.get? feed).map Outlet.watch

/-- The task has something to do in the registry. -/
def wants (e : Engine) : Task → Bool
  | .caller id => (e.callers.get? id).any Wait.isForRegistry
  | .watcher feed => (e.watch? feed).any Watch.isEnding
  | .dispatcher => e.dispatcher.stage.isCollecting
  | .poller id => (e.pollers.get? id).any Poller.isScoping

/-- How often a task has the registry or a place in the line for it. -/
def places (e : Engine) (task : Task) : Nat :=
  e.queue.count task + (e.holder.any fun h => decide (h.task = task)).toNat

/-- The tasks that keep the registry while they wait for the bus. -/
def Operates (e : Engine) : Task → Prop
  | .caller id => ∃ op finish, e.callers.get? id = some (.operation op finish)
  | .watcher _ => True
  | .dispatcher | .poller _ => False

/-- The caller is not going to bring a feed into the registry. -/
def BringsNone (e : Engine) (id : CallerId) : Prop :=
  ∀ op finish, e.callers.get? id = some (.operation op finish) → op.newcomer? = none

/-- Nobody watches the feed that a caller is to bring into the registry. -/
def Expects (e : Engine) (id : CallerId) : Prop :=
  e.BringsNone id ∨ ∃ cancelled, e.watch? id = some (.expected cancelled)

/-- Each task but the dispatcher is in its place; the task `loose` has given up the one that it had
and is still to get another, or is to be through. -/
structure Lines (loose : Option Task) (e : Engine) : Prop where
  places : ∀ task, task ≠ .dispatcher →
    e.places task + (decide (loose = some task)).toNat = (e.wants task).toNat
  holder : ∀ h, e.holder = some h → e.Operates h.task
  expects : ∀ id, loose ≠ some (.caller id) → e.Expects id
  pollers_lt : ∀ id p, e.pollers.get? id = some p → id < e.fresh

/-- Nothing has changed on which the line depends. -/
structure Abreast (e e' : Engine) : Prop where
  fresh : e.fresh ≤ e'.fresh
  queue : e'.queue = e.queue
  holder : e'.holder = e.holder
  callers : e'.callers = e.callers
  watch : ∀ feed, e'.watch? feed = e.watch? feed
  pollers : e'.pollers = e.pollers

variable {e e' e'' : Engine} {loose : Option Task} {id : CallerId} {feed : FeedId}

theorem Operates.congr {task : Task} (h : e.Operates task)
    (hc : ∀ id, task = .caller id → e'.callers.get? id = e.callers.get? id) : e'.Operates task := by
  cases task with
  | caller id =>
    obtain ⟨op, finish, hw⟩ := h
    exact ⟨op, finish, (hc id rfl).trans hw⟩
  | watcher feed => trivial
  | dispatcher => exact h
  | poller id => exact h

theorem Expects.congr (h : e.Expects id) (hc : e'.callers.get? id = e.callers.get? id)
    (hw : e'.watch? id = e.watch? id) : e'.Expects id :=
  h.imp (fun hb op finish hop => hb op finish (hc.symm.trans hop))
    fun ⟨cancelled, hx⟩ => ⟨cancelled, hw.trans hx⟩

theorem bringsNone_of_none (h : e.callers.get? id = none) : e.BringsNone id := by
  intro op finish hw
  cases h.symm.trans hw

namespace Abreast

theorem of_eq (hf : e.fresh ≤ e'.fresh) (hq : e'.queue = e.queue) (hh : e'.holder = e.holder)
    (hc : e'.callers = e.callers) (ho : e'.outlets = e.outlets) (hp : e'.pollers = e.pollers) :
    Abreast e e' :=
  ⟨hf, hq, hh, hc, fun feed => by rw [watch?, watch?, ho], hp⟩

theorem refl (e : Engine) : Abreast e e := of_eq (Nat.le_refl _) rfl rfl rfl rfl rfl

theorem trans (h : Abreast e e') (h' : Abreast e' e'') : Abreast e e'' where
  fresh := Nat.le_trans h.fresh h'.fresh
  queue := h'.queue.trans h.queue
  holder := h'.holder.trans h.holder
  callers := h'.callers.trans h.callers
  watch feed := (h'.watch feed).trans (h.watch feed)
  pollers := h'.pollers.trans h.pollers

theorem note (e : Engine) (entry : Entry) : Abreast e (e.note entry) :=
  of_eq (Nat.le_refl _) rfl rfl rfl rfl rfl

theorem setDispatcher (e : Engine) (d : Dispatcher) : Abreast e { e with dispatcher := d } :=
  of_eq (Nat.le_refl _) rfl rfl rfl rfl rfl

theorem register (e : Engine) (r : Registry) : Abreast e { e with registry := r } :=
  of_eq (Nat.le_refl _) rfl rfl rfl rfl rfl

theorem number (e : Engine) : Abreast e { e with fresh := e.fresh + 1 } :=
  of_eq (Nat.le_succ _) rfl rfl rfl rfl rfl

theorem putOutlet {o : Outlet} (ho : e.outlets.get? feed = some o) (o' : Outlet)
    (hw : o'.watch = o.watch) : Abreast e { e with outlets := e.outlets.put feed o' } := by
  refine ⟨Nat.le_refl _, rfl, rfl, rfl, fun f => ?_, rfl⟩
  simp only [watch?, Table.get?_put]
  split
  · rename_i hf
    rw [hf, ho, Option.map_some, Option.map_some, hw]
  · rfl

theorem closeFeed (e : Engine) (feed : FeedId) : Abreast e (e.closeFeed feed) := by
  refine ⟨Nat.le_refl _, rfl, rfl, rfl, fun f => ?_, rfl⟩
  simp only [watch?, Engine.closeFeed, Engine.note, Table.get?_modify]
  split
  · rw [Option.map_map]
    rfl
  · rfl

theorem onFeed {lane : Lane} {f : Feed Update → Option (Feed Update)}
    (h : e.onFeed? feed lane f = some e') : Abreast e e' := by
  unfold onFeed? at h
  split at h
  · rename_i o ho
    obtain ⟨f', -, rfl⟩ := Option.map_eq_some_iff.1 h
    exact (putOutlet ho { o with feed := f' } rfl).trans (setDispatcher _ _)
  · cases h

theorem deliver (e : Engine) (parcel : Parcel Update) (targets : List FeedId) :
    Abreast e (e.deliver parcel targets) := by
  cases targets with
  | nil => exact setDispatcher e _
  | cons feed rest =>
    simp only [Engine.deliver]
    split
    · exact (note e _).trans (setDispatcher _ _)
    · rename_i o ho
      split
      · have hput := putOutlet ho { o with feed := o.feed.send parcel } rfl
        exact (hput.trans (note _ _)).trans (setDispatcher _ _)
      · exact (note e _).trans (setDispatcher _ _)

theorem noteCall (e : Engine) : Abreast e e.noteCall := by
  unfold Engine.noteCall
  split
  · exact note e _
  · exact refl e

theorem look (h : e.look? = some e') : Abreast e e' := by
  unfold look? at h
  split at h
  · cases h
    exact setDispatcher e _
  · cases h

theorem unblock (h : e.unblock? = some e') : Abreast e e' := by
  unfold unblock? at h
  split at h
  · split at h
    · cases h
    · cases h
      exact setDispatcher e _
  · cases h

theorem send (e : Engine) (command : Command) : Abreast e (e.send command) :=
  (setDispatcher e _).trans (note _ _)

theorem places (h : Abreast e e') (task : Task) : e'.places task = e.places task := by
  rw [Engine.places, Engine.places, h.queue, h.holder]

theorem wants (h : Abreast e e') {task : Task} (ht : task ≠ .dispatcher) :
    e'.wants task = e.wants task := by
  cases task with
  | caller id => simp only [Engine.wants, h.callers]
  | watcher feed => simp only [Engine.wants, h.watch]
  | dispatcher => exact absurd rfl ht
  | poller id => simp only [Engine.wants, h.pollers]

theorem lines (h : Abreast e e') (hl : e.Lines loose) : e'.Lines loose where
  places task ht := by
    rw [h.places, h.wants ht]
    exact hl.places task ht
  holder holder hh := (hl.holder holder (h.holder ▸ hh)).congr fun id _ => by rw [h.callers]
  expects id hid := (hl.expects id hid).congr (by rw [h.callers]) (h.watch id)
  pollers_lt id p hp := Nat.lt_of_lt_of_le (hl.pollers_lt id p (h.pollers ▸ hp)) h.fresh

end Abreast

theorem wants_answer (e : Engine) (id : CallerId) (a : Answer) (task : Task) :
    (e.answer id a).wants task = (e.wants task && decide (task ≠ .caller id)) := by
  cases task with
  | caller c =>
    simp only [wants, get?_callers_answer]
    by_cases hc : c = id <;> simp [hc]
  | watcher feed => simp [wants, watch?]
  | dispatcher => simp [wants]
  | poller p => simp [wants]

theorem places_answer (e : Engine) (id : CallerId) (a : Answer) (task : Task) :
    (e.answer id a).places task = e.places task := by
  rw [places, places, queue_answer, holder_answer]

theorem wants_of_operates (h : e.Operates (.caller id)) : e.wants (.caller id) = true := by
  obtain ⟨op, finish, hw⟩ := h
  simp [wants, hw, Wait.isForRegistry]

theorem wants_await (e : Engine) (id : CallerId) (w : Wait) (task : Task) :
    (e.await id w).wants task = if task = .caller id then w.isForRegistry else e.wants task := by
  cases task with
  | caller c =>
    simp only [wants, Engine.await, Table.get?_put]
    by_cases hc : c = id <;> simp [hc]
  | _ => rfl

theorem get?_callers_await (e : Engine) (id : CallerId) (w : Wait) (c : CallerId) :
    (e.await id w).callers.get? c = if c = id then some w else e.callers.get? c :=
  e.callers.get?_put id w c

@[simp] theorem watch?_answer (e : Engine) (id : CallerId) (a : Answer) (feed : FeedId) :
    (e.answer id a).watch? feed = e.watch? feed := by
  rw [watch?, watch?, outlets_answer]

theorem watch?_setWatch (e : Engine) (feed : FeedId) (w : Watch) (f : FeedId) :
    (e.setWatch feed w).watch? f =
      if f = feed then (e.watch? f).map fun _ => w else e.watch? f := by
  simp only [watch?, setWatch, Table.get?_modify]
  split
  · rw [Option.map_map, Option.map_map]
    rfl
  · rfl

theorem wants_setWatch (e : Engine) (feed : FeedId) (w : Watch) (task : Task) :
    (e.setWatch feed w).wants task =
      if task = .watcher feed then (e.watch? feed).isSome && w.isEnding else e.wants task := by
  cases task with
  | watcher f =>
    simp only [wants, watch?_setWatch]
    by_cases hf : f = feed
    · subst hf
      cases e.watch? f <;> simp
    · simp [hf]
  | _ => rfl

theorem places_enlist (e : Engine) (t task : Task) :
    (e.enlist t).places task = e.places task + (decide (t = task)).toNat := by
  have hc : [t].count task = (decide (t = task)).toNat := by
    rw [List.count_singleton]
    by_cases ht : t = task <;> simp [ht]
  simp only [places, enlist, List.count_append, hc]
  omega

namespace Lines

theorem of_eq (h : e.Lines loose) (hf : e.fresh ≤ e'.fresh) (hq : e'.queue = e.queue)
    (hh : e'.holder = e.holder) (hc : e'.callers = e.callers) (ho : e'.outlets = e.outlets)
    (hp : e'.pollers = e.pollers) : e'.Lines loose :=
  (Abreast.of_eq hf hq hh hc ho hp).lines h

theorem wants_of_loose {task : Task} (h : e.Lines (some task)) (ht : task ≠ .dispatcher) :
    e.wants task = true ∧ e.places task = 0 := by
  have hp := h.places task ht
  simp only [decide_true, Bool.toNat_true] at hp
  have hle := (e.wants task).toNat_le
  refine ⟨?_, by omega⟩
  cases hw : e.wants task with
  | true => rfl
  | false =>
    rw [hw] at hp
    simp at hp

theorem enlist {task : Task} (h : e.Lines (some task))
    (hx : ∀ id, task = .caller id → e.Expects id) : (e.enlist task).Lines none where
  places t ht := by
    have hp := h.places t ht
    have hw : (e.enlist task).wants t = e.wants t := by cases t <;> rfl
    rw [places_enlist, hw, ← hp]
    simp
  holder := h.holder
  expects id _ := by
    by_cases ht : task = .caller id
    · exact hx id ht
    · exact h.expects id fun he => ht (Option.some.inj he)
  pollers_lt := h.pollers_lt

theorem hold {task : Task} (h : e.Lines (some task)) (hh : e.holder = none) (ht : e.Operates task)
    (hx : ∀ id, task = .caller id → e.Expects id) (call : MatchCall) (pause : Registry.Pause) :
    { e with holder := some ⟨task, call, pause⟩ }.Lines none where
  places t hd := by
    have hp := h.places t hd
    have hw : { e with holder := some ⟨task, call, pause⟩ }.wants t = e.wants t := by
      cases t <;> rfl
    rw [hw, ← hp]
    simp [Engine.places, hh]
  holder holder hs := by
    cases hs
    cases task <;> exact ht
  expects id _ := by
    by_cases hid : task = .caller id
    · exact hx id hid
    · exact h.expects id fun he => hid (Option.some.inj he)
  pollers_lt := h.pollers_lt

theorem leaveLine {task : Task} (h : e.Lines none) (hq : e.queue.contains task = true) :
    { e with queue := e.queue.erase task }.Lines (some task) where
  places t ht := by
    have hp := h.places t ht
    have hw : { e with queue := e.queue.erase task }.wants t = e.wants t := by cases t <;> rfl
    rw [hw, ← hp]
    simp only [Engine.places, reduceCtorEq, decide_false, Bool.toNat_false, Option.some.injEq,
      Nat.add_zero]
    by_cases htt : task = t
    · subst htt
      have hpos := List.count_pos_iff.2 (List.contains_iff_mem.1 hq)
      rw [List.count_erase_self]
      simp only [decide_true, Bool.toNat_true]
      omega
    · rw [List.count_erase_of_ne (Ne.symm htt)]
      simp [htt]
  holder := h.holder
  expects id _ := h.expects id (by simp)
  pollers_lt := h.pollers_lt

theorem release {holder : Holder} (h : e.Lines none) (hh : e.holder = some holder) :
    { e with holder := none }.Lines (some holder.task) where
  places t ht := by
    have hp := h.places t ht
    have hw : { e with holder := none }.wants t = e.wants t := by cases t <;> rfl
    rw [hw, ← hp]
    simp [Engine.places, hh]
  holder _ hs := by cases hs
  expects id _ := h.expects id (by simp)
  pollers_lt := h.pollers_lt

theorem answer_loose (h : e.Lines (some (.caller id))) (a : Answer) :
    (e.answer id a).Lines none where
  places t ht := by
    have hp := h.places t ht
    obtain ⟨-, h0⟩ := h.wants_of_loose (by simp)
    rw [places_answer, wants_answer]
    by_cases htt : t = .caller id
    · subst htt
      simp [h0]
    · have hne : ¬(Task.caller id) = t := Ne.symm htt
      simpa [htt, hne] using hp
  holder holder hs := by
    rw [holder_answer] at hs
    refine (h.holder holder hs).congr fun c ht => ?_
    rw [get?_callers_answer, if_neg]
    rintro rfl
    obtain ⟨-, h0⟩ := h.wants_of_loose (by simp)
    simp [Engine.places, hs, ht] at h0
  expects c _ := by
    by_cases hc : c = id
    · exact .inl (bringsNone_of_none (by rw [get?_callers_answer, if_pos hc]))
    · refine (h.expects c fun he => hc (by cases he; rfl)).congr ?_ (watch?_answer e id a c)
      rw [get?_callers_answer, if_neg hc]
  pollers_lt p q hp := by
    rw [fresh_answer]
    exact h.pollers_lt p q (by rwa [pollers_answer] at hp)

theorem answer (h : e.Lines loose) (hn : e.wants (.caller id) = false) (a : Answer) :
    (e.answer id a).Lines loose where
  places t ht := by
    have hp := h.places t ht
    rw [places_answer, wants_answer, hp]
    by_cases htt : t = .caller id
    · subst htt
      simp [hn]
    · simp [htt]
  holder holder hs := by
    rw [holder_answer] at hs
    have hop := h.holder holder hs
    refine hop.congr fun c ht => ?_
    rw [get?_callers_answer, if_neg]
    rintro rfl
    rw [wants_of_operates (ht ▸ hop)] at hn
    cases hn
  expects c hc := by
    by_cases hcid : c = id
    · exact .inl (bringsNone_of_none (by rw [get?_callers_answer, if_pos hcid]))
    · refine (h.expects c hc).congr ?_ (watch?_answer e id a c)
      rw [get?_callers_answer, if_neg hcid]
  pollers_lt p q hp := by
    rw [fresh_answer]
    exact h.pollers_lt p q (by rwa [pollers_answer] at hp)

theorem dispatch (h : e.Lines loose) {r : Dispatcher × List Reply}
    (hr : ∀ reply ∈ r.2, e.wants (.caller reply.1) = false) : (e.dispatch r).Lines loose := by
  have hd : { e with dispatcher := r.1 }.Lines loose := (Abreast.setDispatcher e r.1).lines h
  refine (answerAll_induct (I := fun x => x.Lines loose ∧
    ∀ reply ∈ r.2, x.wants (.caller reply.1) = false) ⟨hd, hr⟩ fun x reply hm hx => ?_).1
  refine ⟨hx.1.answer (hx.2 reply hm) _, fun reply' hm' => ?_⟩
  rw [wants_answer, hx.2 reply' hm', Bool.false_and]

/-- A caller comes to wait for something in the registry. It is a new one, or one that is through
with what it wanted before. -/
theorem await (h : e.Lines loose) {w : Wait} (hw : w.isForRegistry = true)
    (hl : loose = some (.caller id) ∨ loose = none ∧ e.callers.get? id = none) :
    (e.await id w).Lines (some (.caller id)) where
  places t ht := by
    have hp := h.places t ht
    have hplaces : (e.await id w).places t = e.places t := rfl
    rw [hplaces, wants_await]
    by_cases htt : t = .caller id
    · subst htt
      have h0 : e.places (.caller id) = 0 := by
        obtain rfl | ⟨rfl, hid⟩ := hl
        · exact (h.wants_of_loose (by simp)).2
        · simpa [Engine.wants, hid] using hp
      simp [h0, hw]
    · have hne : ¬(Task.caller id) = t := Ne.symm htt
      obtain rfl | ⟨rfl, -⟩ := hl <;> simpa [htt, hne] using hp
  holder holder hs := by
    refine (h.holder holder hs).congr fun c ht => ?_
    rw [get?_callers_await, if_neg]
    rintro rfl
    have hpos : 0 < e.places (.caller c) := by simp [Engine.places, show e.holder = _ from hs, ht]
    obtain rfl | ⟨rfl, hid⟩ := hl
    · exact absurd (h.wants_of_loose (by simp)).2 (Nat.ne_of_gt hpos)
    · have hp := h.places (.caller c) (by simp)
      simp [Engine.wants, hid] at hp
      omega
  expects c hc := by
    have hcid : c ≠ id := fun he => hc (by rw [he])
    refine (h.expects c ?_).congr ?_ rfl
    · obtain rfl | ⟨rfl, -⟩ := hl
      · exact hc
      · simp
    · rw [get?_callers_await, if_neg hcid]
  pollers_lt := h.pollers_lt

theorem await_aside (h : e.Lines none) {w : Wait} (hw : w.isForRegistry = false)
    (hid : e.callers.get? id = none) : (e.await id w).Lines none where
  places t ht := by
    have hp := h.places t ht
    have hplaces : (e.await id w).places t = e.places t := rfl
    rw [hplaces, wants_await, hp]
    split
    · rename_i htt
      subst htt
      simp [Engine.wants, hid, hw]
    · rfl
  holder holder hs := by
    refine (h.holder holder hs).congr fun c ht => ?_
    rw [get?_callers_await, if_neg]
    rintro rfl
    obtain ⟨op, finish, hop⟩ := ht ▸ h.holder holder hs
    cases hid.symm.trans hop
  expects c hc := by
    by_cases hcid : c = id
    · refine .inl fun op finish hop => ?_
      rw [get?_callers_await, if_pos hcid] at hop
      cases Option.some.inj hop
      cases hw
    · refine (h.expects c hc).congr ?_ rfl
      rw [get?_callers_await, if_neg hcid]
  pollers_lt := h.pollers_lt

theorem expects_setWatch {c : CallerId} {w : Watch} (h : e.Expects c)
    (hc : c = feed → e.BringsNone c ∨ ∃ cancelled, w = .expected cancelled) :
    (e.setWatch feed w).Expects c := by
  by_cases hf : c = feed
  · obtain hb | ⟨cancelled, rfl⟩ := hc hf
    · exact .inl hb
    · refine h.imp id ?_
      rintro ⟨b, hb⟩
      exact ⟨cancelled, by rw [watch?_setWatch, if_pos hf, hb, Option.map_some]⟩
  · exact h.congr rfl (by rw [watch?_setWatch, if_neg hf])

/-- The task of a subscription that wants nothing comes to do something else, and wants nothing. -/
theorem setWatch (h : e.Lines loose) {w : Watch} (hw : e.wants (.watcher feed) = false)
    (he : w.isEnding = false)
    (hx : loose = some (.caller feed) ∨ e.BringsNone feed ∨ ∃ cancelled, w = .expected cancelled) :
    (e.setWatch feed w).Lines loose where
  places t ht := by
    have hp := h.places t ht
    have hplaces : (e.setWatch feed w).places t = e.places t := rfl
    rw [hplaces, wants_setWatch, hp]
    split
    · rename_i htt
      rw [htt, hw, he, Bool.and_false]
    · rfl
  holder := h.holder
  expects c hc := by
    refine expects_setWatch (h.expects c hc) ?_
    rintro rfl
    exact hx.resolve_left hc
  pollers_lt := h.pollers_lt

theorem setWatch_ending (h : e.Lines none) (hw : e.wants (.watcher feed) = false)
    (ho : (e.watch? feed).isSome = true) (hb : e.BringsNone feed) :
    (e.setWatch feed .ending).Lines (some (.watcher feed)) where
  places t ht := by
    have hp := h.places t ht
    have hplaces : (e.setWatch feed .ending).places t = e.places t := rfl
    rw [hplaces, wants_setWatch]
    by_cases htt : t = .watcher feed
    · subst htt
      rw [hw] at hp
      have h0 : e.places (.watcher feed) = 0 := by simpa using hp
      simp [h0, ho, Watch.isEnding]
    · have hne : ¬(Task.watcher feed) = t := Ne.symm htt
      simpa [htt, hne] using hp
  holder := h.holder
  expects c hc := by
    refine expects_setWatch (h.expects c (by simp)) ?_
    rintro rfl
    exact .inl hb
  pollers_lt := h.pollers_lt

theorem setWatch_over (h : e.Lines (some (.watcher feed))) :
    (e.setWatch feed .over).Lines none where
  places t ht := by
    have hp := h.places t ht
    have hplaces : (e.setWatch feed .over).places t = e.places t := rfl
    obtain ⟨-, h0⟩ := h.wants_of_loose (by simp)
    rw [hplaces, wants_setWatch]
    by_cases htt : t = .watcher feed
    · subst htt
      simp [h0, Watch.isEnding]
    · have hne : ¬(Task.watcher feed) = t := Ne.symm htt
      simpa [htt, hne] using hp
  holder := h.holder
  expects c _ := by
    have hx := h.expects c (by simp)
    refine expects_setWatch hx ?_
    rintro rfl
    refine .inl (hx.resolve_right ?_)
    rintro ⟨cancelled, hwatch⟩
    obtain ⟨hw, -⟩ := h.wants_of_loose (by simp)
    simp [Engine.wants, hwatch, Watch.isEnding] at hw
  pollers_lt := h.pollers_lt

end Lines

end Engine

end UnitControl
