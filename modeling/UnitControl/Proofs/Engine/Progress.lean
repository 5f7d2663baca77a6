import UnitControl.Engine.Schedule
import UnitControl.Proofs.Engine.Tenure

/-!
# Progress in the line for the registry

Whoever gets the registry next and whatever the bus answers, grants and answers come to an end, and
then nobody wants the registry any more. A grant uses up a turn, and an answer brings the operation
under way nearer to its end.
-/

namespace UnitControl

namespace Registry

/-- How many answers of the bus are needed at most until the operation is over. -/
def Pause.answers : Pause → Nat
  | joining .. | subscribing .. => 1
  | reattaching _ _ held _ rest => held.length + 2 * rest.length + 2
  | releasing _ rest => rest.length + 1

def Progress.answers : Progress → Nat
  | done _ => 0
  | ask _ pause => pause.answers

theorem answers_releaseAll_le (r : Registry) (failure : Option Error) (units : List String) :
    (r.releaseAll failure units).2.answers ≤ units.length := by
  induction units generalizing r with
  | nil => exact Nat.le_refl 0
  | cons unit rest ih =>
    unfold releaseAll
    cases r.letGo unit with
    | mk r' last =>
      cases last with
      | true => exact Nat.le_refl _
      | false => exact Nat.le_succ_of_le (ih r')

theorem answers_holdAll_le (r : Registry) (s : SetId) (feed : FeedId) (held rest : List String) :
    (r.holdAll s feed held rest).2.answers ≤ held.length + 2 * rest.length := by
  induction rest generalizing r held with
  | nil => exact Nat.zero_le _
  | cons unit rest ih =>
    unfold holdAll
    split
    · simp only [Progress.answers, Pause.answers, List.length_cons]
      omega
    · have h := ih (r.hold unit) (held ++ [unit])
      simp only [List.length_append, List.length_cons, List.length_nil] at h ⊢
      omega

theorem answers_resume_lt (r : Registry) (answer : Except Error Unit) (pause : Pause) :
    (r.resume answer pause).2.answers < pause.answers := by
  cases pause with
  | joining s unit => cases answer <;> exact Nat.zero_lt_one
  | subscribing feed unit => cases answer <;> exact Nat.zero_lt_one
  | reattaching s feed held unit rest =>
    cases answer with
    | ok u =>
      have h := answers_holdAll_le (r.hold unit) s feed (held ++ [unit]) rest
      simp only [resume, Pause.answers, List.length_append, List.length_singleton] at h ⊢
      omega
    | error err =>
      have h := answers_releaseAll_le r (some err) held
      simp only [resume, Pause.answers]
      omega
  | releasing failure rest =>
    cases answer with
    | ok u => exact Nat.lt_succ_of_le (answers_releaseAll_le r failure rest)
    | error err => exact Nat.lt_succ_of_le (answers_releaseAll_le r (failure.or (some err)) rest)

end Registry

/-- A caller is to take back what it is about to do. -/
def Wait.isToUndo : Wait → Bool
  | operation _ (.undo ..) => true
  | _ => false

/-- A subscription was cancelled before it was made. -/
def Watch.isPremature : Watch → Bool
  | expected cancelled => cancelled
  | _ => false

/-- A subscription has ended, or is going to end. -/
def Watch.isCancelled : Watch → Bool
  | expected cancelled => cancelled
  | watching => false
  | _ => true

namespace Engine

/-- How many turns with the registry there are to be: those of the tasks in the line, and those for
which a task will join the line once more. -/
def turns (e : Engine) : Nat :=
  e.queue.length + e.callers.entries.countP (fun entry => entry.2.isToUndo) +
    e.outlets.entries.countP fun entry => entry.2.watch.isPremature

/-- How many answers of the bus are needed at most until the registry is free. -/
def answers (e : Engine) : Nat := e.holder.elim 0 fun h => h.pause.answers

/-- The dispatcher waits for room on the channel of a feed, whether it was roused or not. -/
def HeldUp (e : Engine) (parcel : Parcel Update) (feed : FeedId) (rest : List FeedId) : Prop :=
  ∃ roused, e.dispatcher.stage = .blocked parcel feed rest roused

/-- On the way to the later engine no turn is added. Whoever waited for the registry still waits or
has an answer, what was cancelled stays cancelled, and the dispatcher waits where it waited. -/
structure Furthers (e e' : Engine) : Prop where
  turns : e'.turns ≤ e.turns
  record : e.record ⊆ e'.record
  callers : ∀ id, e.wants (.caller id) = true →
    e'.wants (.caller id) = true ∨ ∃ a, Entry.answered id a ∈ e'.record
  cancelled : ∀ feed, (e.watch? feed).any Watch.isCancelled = true →
    (e'.watch? feed).any Watch.isCancelled = true
  heldUp : ∀ parcel feed rest, e.HeldUp parcel feed rest → e'.HeldUp parcel feed rest

variable {e e' e'' : Engine} {id : CallerId} {feed : FeedId}

theorem countP_modify_le {κ α : Type} [DecidableEq κ] (t : Table κ α) (k : κ) {f : α → α}
    {p : α → Bool} (hf : ∀ a, p (f a) = true → p a = true) :
    (t.modify k f).entries.countP (fun entry => p entry.2) ≤
      t.entries.countP fun entry => p entry.2 := by
  unfold Table.modify
  cases ha : t.get? k with
  | none => exact Nat.le_refl _
  | some a =>
    have hput := t.countP_put k (f a) fun entry => p entry.2
    rw [ha, Option.toList_some, List.countP_singleton] at hput
    cases hp : p (f a) with
    | false =>
      simp only [hp, Bool.toNat_false] at hput
      exact Nat.le.intro hput
    | true =>
      simp only [hp, hf a hp, if_true, Bool.toNat_true] at hput
      exact Nat.le_of_eq (Nat.add_right_cancel hput)

theorem countP_put_succ {κ α : Type} [DecidableEq κ] {t : Table κ α} {k : κ} {a b : α}
    {p : α → Bool} (ha : t.get? k = some a) (hp : p a = true) (hb : p b = false) :
    (t.put k b).entries.countP (fun entry => p entry.2) + 1 =
      t.entries.countP fun entry => p entry.2 := by
  have hput := t.countP_put k b fun entry => p entry.2
  rwa [ha, Option.toList_some, List.countP_singleton, if_pos hp, hb] at hput

namespace Furthers

theorem of_eq (hq : e'.queue = e.queue) (hc : e'.callers = e.callers) (ho : e'.outlets = e.outlets)
    (hr : e.record ⊆ e'.record) (hd : e'.dispatcher = e.dispatcher) : Furthers e e' where
  turns := Nat.le_of_eq (by rw [Engine.turns, Engine.turns, hq, hc, ho])
  record := hr
  callers id hw := .inl (by rwa [wants, hc])
  cancelled feed hw := by rwa [watch?, ho]
  heldUp parcel feed rest hs := by rwa [HeldUp, hd]

theorem refl (e : Engine) : Furthers e e := of_eq rfl rfl rfl (fun _ h => h) rfl

theorem trans (h : Furthers e e') (h' : Furthers e' e'') : Furthers e e'' where
  turns := Nat.le_trans h'.turns h.turns
  record := List.Subset.trans h.record h'.record
  callers id hw := by
    obtain hw' | ⟨a, ha⟩ := h.callers id hw
    · exact h'.callers id hw'
    · exact .inr ⟨a, h'.record ha⟩
  cancelled feed hw := h'.cancelled feed (h.cancelled feed hw)
  heldUp parcel feed rest hs := h'.heldUp parcel feed rest (h.heldUp parcel feed rest hs)

theorem note (e : Engine) (entry : Entry) : Furthers e (e.note entry) := by
  refine of_eq rfl rfl rfl (fun x hx => ?_) rfl
  rw [record_note]
  split
  · exact List.mem_cons_of_mem _ hx
  · exact hx

theorem setDispatcher {d : Dispatcher} (h : ∀ parcel feed rest, e.HeldUp parcel feed rest →
    { e with dispatcher := d }.HeldUp parcel feed rest) :
    Furthers e { e with dispatcher := d } where
  turns := Nat.le_refl _
  record _ h := h
  callers _ := .inl
  cancelled _ h := h
  heldUp := h

theorem answer (e : Engine) (id : CallerId) (a : Answer) : Furthers e (e.answer id a) where
  turns := by
    have hc : (e.answer id a).callers.entries.countP (fun entry => entry.2.isToUndo) ≤
        e.callers.entries.countP fun entry => entry.2.isToUndo := by
      unfold Engine.answer
      split
      · exact Nat.le.intro (e.callers.countP_erase id _)
      · exact Nat.le_refl _
    simp only [Engine.turns, queue_answer, outlets_answer]
    omega
  record := record_answer_subset e id a
  callers c hw := by
    by_cases hc : c = id
    · subst hc
      obtain ⟨w, hw, -⟩ := (Option.any_eq_true _ _).1 hw
      refine .inr ⟨a, ?_⟩
      rw [record_answer_of_waits hw]
      exact List.mem_cons_self
    · exact .inl (by simp [wants_answer, hw, hc])
  cancelled f hw := by rwa [watch?_answer]
  heldUp parcel f rest hs := by rwa [HeldUp, dispatcher_answer]

theorem setWatch (e : Engine) {w : Watch} (hp : w.isPremature = false)
    (hc : w.isCancelled = true ∨ (e.watch? feed).any Watch.isCancelled = false) :
    Furthers e (e.setWatch feed w) where
  turns := by
    have hm := countP_modify_le e.outlets feed (f := fun o => { o with watch := w })
      (p := fun o => o.watch.isPremature) fun o ho => by simp [hp] at ho
    exact Nat.add_le_add_left hm _
  record _ h := h
  callers _ := .inl
  cancelled f hf := by
    rw [watch?_setWatch]
    split
    · rename_i he
      subst he
      have hw : w.isCancelled = true := hc.resolve_right (by simp [hf])
      cases hx : e.watch? f with
      | none => simp [hx] at hf
      | some x => exact hw
    · exact hf
  heldUp _ _ _ h := h

theorem closeFeed (e : Engine) (feed : FeedId) : Furthers e (e.closeFeed feed) where
  turns := by
    have hm := countP_modify_le e.outlets feed (f := fun o => { o with feed := o.feed.close })
      (p := fun o => o.watch.isPremature) fun o ho => ho
    exact Nat.add_le_add_left hm _
  record := (note _ _).record
  callers _ := .inl
  cancelled f hf := by rwa [(Abreast.closeFeed e feed).watch f]
  heldUp _ _ _ h := h

theorem abandon (e : Engine) (feed : Option FeedId) : Furthers e (e.abandon feed) := by
  cases feed with
  | none => exact refl e
  | some f => exact (setWatch e rfl (.inl rfl)).trans (closeFeed _ f)

theorem endAtOnce (h : e.watch? feed = some (.expected true)) :
    Furthers e ((e.setWatch feed .ending).enlist (.watcher feed)) where
  turns := by
    obtain ⟨o, ho, hw⟩ := Option.map_eq_some_iff.1 h
    have hput := countP_put_succ (b := { o with watch := .ending })
      (p := fun o => o.watch.isPremature) ho (by simp [hw, Watch.isPremature]) rfl
    simp only [Engine.turns, Engine.enlist, Engine.setWatch, Table.modify, ho,
      List.length_append, List.length_singleton]
    omega
  record _ h := h
  callers _ := .inl
  cancelled f hf := by
    refine (congrArg (Option.any Watch.isCancelled) (watch?_setWatch e feed .ending f)).trans ?_
    split
    · rename_i he
      subst he
      rw [h]
      rfl
    · exact hf
  heldUp _ _ _ h := h

theorem startWatch (e : Engine) (feed : FeedId) : Furthers e (e.startWatch feed) := by
  have hwatch : (e.outlets.get? feed).map Outlet.watch = e.watch? feed := rfl
  unfold Engine.startWatch
  rw [hwatch]
  split
  · exact endAtOnce ‹_›
  · rename_i he
    exact setWatch e rfl (.inr (by rw [he]; rfl))
  · exact refl e

theorem undo {op next next' : Registry.Operation} {cause : String} {err : Error}
    (h : e.callers.get? id = some (.operation op (.undo next cause))) :
    Furthers e ((e.await id (.operation next' (.fail err))).enlist (.caller id)) where
  turns := by
    have hput := countP_put_succ (b := .operation next' (.fail err)) (p := Wait.isToUndo) h
      rfl rfl
    simp only [Engine.turns, Engine.enlist, Engine.await, List.length_append,
      List.length_singleton]
    omega
  record _ h := h
  callers c hc := by
    have hw : ((e.await id (.operation next' (.fail err))).enlist (.caller id)).wants
        (.caller c) = _ := wants_await e id _ (.caller c)
    refine .inl (hw.trans ?_)
    split
    · rfl
    · exact hc
  cancelled _ h := h
  heldUp _ _ _ h := h

theorem conclude {op : Registry.Operation} {finish : Finish}
    (h : e.callers.get? id = some (.operation op finish)) (result : Except Error Unit) :
    Furthers e (e.conclude id op finish result) := by
  cases result with
  | error err => exact (abandon e _).trans (answer _ _ _)
  | ok u =>
    cases finish with
    | answer => exact answer e _ _
    | watch =>
      simp only [Engine.conclude]
      cases op.newcomer? with
      | none => exact answer e _ _
      | some feed => exact (answer e _ _).trans (startWatch _ feed)
    | undo next cause =>
      simp only [Engine.conclude]
      cases op.newcomer? with
      | none => exact undo h
      | some feed =>
        have hover : Furthers e (e.setWatch feed .over) := setWatch e rfl (.inl rfl)
        exact hover.trans (undo (e := e.setWatch feed .over) h)
    | fail cause => exact answer e _ _

theorem finish (e : Engine) (task : Task) (result : Except Error Unit) :
    Furthers e (e.finish task result) := by
  unfold Engine.finish
  split
  · split
    · rename_i id _ op finish hw
      let x := e.note (.operated op result)
      exact (note e _).trans (conclude (e := x) hw result)
    · exact refl e
  · split
    · exact (note e _).trans (setWatch _ rfl (.inl rfl))
    · exact refl e
  · exact refl e
  · exact refl e

theorem proceed (e : Engine) (task : Task) (p : Registry × Registry.Progress) :
    Furthers e (e.proceed task p) := by
  obtain ⟨r, progress⟩ := p
  have hr : Furthers e { e with registry := r } := of_eq rfl rfl rfl (fun _ h => h) rfl
  cases progress with
  | done result => exact hr.trans (finish _ task result)
  | ask call pause =>
    let x := { e with registry := r, holder := some ⟨task, call, pause⟩ }
    have hx : Furthers e x := of_eq rfl rfl rfl (fun _ h => h) rfl
    exact hx.trans (note x _)

theorem operate (e : Engine) (task : Task) (op : Registry.Operation) :
    Furthers e (e.operate task op) := by
  unfold Engine.operate
  cases e.registry.closes op with
  | none => exact proceed e task _
  | some feed => exact (closeFeed e feed).trans (proceed _ task _)

theorem enter (e : Engine) (task : Task) : Furthers e (e.enter task) := by
  cases task with
  | caller id =>
    simp only [Engine.enter]
    split
    · exact answer e _ _
    · exact operate e _ _
    · exact refl e
  | watcher feed =>
    simp only [Engine.enter]
    split
    · exact operate e _ _
    · exact refl e
  | dispatcher =>
    simp only [Engine.enter]
    split
    · rename_i parcel hs
      refine Furthers.trans (setDispatcher fun _ _ _ hb => ?_) (note _ _)
      obtain ⟨roused, hb⟩ := hb
      cases hs.symm.trans hb
    · exact refl e
  | poller id =>
    simp only [Engine.enter]
    split
    · split
      · exact of_eq rfl rfl rfl (fun _ h => h) rfl
      · exact refl e
    · exact refl e

theorem leaveLine (e : Engine) (task : Task) :
    Furthers e { e with queue := e.queue.erase task } where
  turns := by
    have hlen := List.length_erase_le (a := task) (l := e.queue)
    simp only [Engine.turns]
    omega
  record _ h := h
  callers _ := .inl
  cancelled _ h := h
  heldUp _ _ _ h := h

theorem startle (e : Engine) : Furthers e { e with dispatcher := e.dispatcher.startle } :=
  setDispatcher fun _ _ _ ⟨_, hs⟩ => ⟨true, Dispatcher.stage_rouse_of_blocked hs⟩

end Furthers

/-- A task gets the registry, or the bus answers the one that has it. -/
def Advances (e e' : Engine) : Prop := ∃ event, event.usesRegistry = true ∧ e.step event = some e'

theorem answers_proceed (h : e.holder = none) (task : Task) (p : Registry × Registry.Progress) :
    (e.proceed task p).answers = p.2.answers := by
  rw [answers, (alike_proceed task p).holder]
  obtain ⟨r, progress⟩ := p
  cases progress with
  | done result => rw [book_done, holder_settle, h]; rfl
  | ask call pause => rfl

theorem Furthers.of_advances (h : e.Advances e') : Furthers e e' := by
  obtain ⟨event, hu, hs⟩ := h
  refine of_step hs (fun x hr => ?_) fun x hx => hx.trans (.startle x)
  cases hr with
  | grant hh hq => exact (Furthers.leaveLine e _).trans (.enter _ _)
  | @matchReturned holder answer hh =>
    have hx : Furthers e { e with holder := none } := .of_eq rfl rfl rfl (fun _ h => h) rfl
    exact (hx.trans (.note _ _)).trans (.proceed _ _ _)
  | _ => cases hu

/-- A grant uses up a turn; an answer uses up none, but is one less that is still needed. -/
theorem Advances.less (h : e.Advances e') :
    Prod.Lex (· < ·) (· < ·) (e'.turns, e'.answers) (e.turns, e.answers) := by
  have hle := (Furthers.of_advances h).turns
  obtain ⟨event, hu, hs⟩ := h
  have hless : e'.turns < e.turns ∨ e'.answers < e.answers := by
    refine of_step (P := fun x => x.turns < e.turns ∨ x.answers < e.answers) hs (fun x hr => ?_)
      fun _ => id
    cases hr with
    | @grant task hh hq =>
      let y := { e with queue := e.queue.erase task }
      have hy : y.turns < e.turns := by
        have hlen := List.length_erase_add_one (List.contains_iff_mem.1 hq)
        simp only [y, turns]
        omega
      exact .inl (Nat.lt_of_le_of_lt (Furthers.enter y task).turns hy)
    | @matchReturned holder answer hh =>
      right
      rw [answers_proceed rfl, answers, hh]
      exact Registry.answers_resume_lt _ _ _
    | _ => cases hu
  obtain hlt | hlt := hless
  · exact .left _ _ hlt
  · obtain heq | hlt' := Nat.eq_or_lt_of_le hle
    · rw [heq]
      exact .right _ hlt
    · exact .left _ _ hlt'

theorem wellFounded_advances : WellFounded fun e' e : Engine => e.Advances e' :=
  Subrelation.wf Advances.less
    (InvImage.wf (fun e : Engine => (e.turns, e.answers))
      (Prod.lex Nat.lt_wfRel Nat.lt_wfRel).wf)

/-- Whoever gets the registry next, whatever the bus answers, and with nothing else happening, this
comes to hold. -/
inductive ComesTo (P : Engine → Prop) : Engine → Prop
  | now {e : Engine} (h : P e) : ComesTo P e
  | later {e : Engine} (hsome : ∃ e', e.Advances e') (hall : ∀ e', e.Advances e' → ComesTo P e') :
      ComesTo P e

theorem ComesTo.imp {P Q : Engine → Prop} (h : e.ComesTo P) (hpq : ∀ x, P x → Q x) :
    e.ComesTo Q := by
  induction h with
  | now h => exact .now (hpq _ h)
  | later hsome _ ih => exact .later hsome ih

/-- What grants and answers preserve still holds then. -/
theorem ComesTo.keeping {P I : Engine → Prop} (h : e.ComesTo P) (hi : I e)
    (hstep : ∀ x y, I x → x.Advances y → I y) : e.ComesTo fun z => P z ∧ I z := by
  induction h with
  | now h => exact .now ⟨h, hi⟩
  | later hsome _ ih => exact .later hsome fun y hy => ih y hy (hstep _ y hi hy)

theorem Reachable.mem_queue_of_wants (h : e.Reachable) (hfree : e.holder = none) {task : Task}
    (hw : e.wants task = true) : task ∈ e.queue := by
  have hp := h.places task
  simp only [Engine.places, hfree, hw, Option.any_none, Bool.toNat_false, Bool.toNat_true,
    Nat.add_zero] at hp
  exact List.count_pos_iff.1 (hp ▸ Nat.one_pos)

theorem exists_step_grant {task : Task} (hfree : e.holder = none) (hq : task ∈ e.queue) :
    ∃ e', e.step (.grant task) = some e' := by
  have hc : e.queue.contains task = true := List.contains_iff_mem.2 hq
  have hr : e.react (.grant task) =
      some ({ e with queue := e.queue.erase task }.enter task) := by
    simp only [react, grant?, hfree, hc, Option.isNone_none, Bool.and_self, if_true]
  obtain ⟨d, hs⟩ := exists_step_of_react hr
  exact ⟨_, hs⟩

/-- As long as a task wants the registry, it can be granted or the bus owes an answer. -/
theorem Reachable.exists_advances (h : e.Reachable) {task : Task} (hw : e.wants task = true) :
    ∃ e', e.Advances e' := by
  cases hh : e.holder with
  | none =>
    obtain ⟨e', hs⟩ := exists_step_grant hh (h.mem_queue_of_wants hh hw)
    exact ⟨e', _, rfl, hs⟩
  | some holder =>
    obtain ⟨e', hs, -⟩ := exists_step_matchReturned hh (.ok ())
    exact ⟨e', _, rfl, hs⟩

/-- By induction on what is left to be done: either nobody wants the registry any more, or there is
a next grant or answer, and less is left after each. -/
theorem Reachable.comesToRest (h : e.Reachable) :
    e.ComesTo fun z => ∀ task, z.wants task = false := by
  induction e using wellFounded_advances.induction with
  | h e ih =>
    by_cases hw : ∃ task, e.wants task = true
    · obtain ⟨task, hw⟩ := hw
      refine .later (h.exists_advances hw) fun y hy => ih y hy ?_
      obtain ⟨event, -, hs⟩ := hy
      exact h.step hs
    · exact .now fun task => Bool.eq_false_iff.2 fun ht => hw ⟨task, ht⟩

end Engine

end UnitControl
