import UnitControl.Proofs.Engine.Answers

/-!
# Who waits for what

No number is used twice, so an answer ends the wait of its caller for good. A caller whose slot the
dispatcher keeps is waiting for that very reply, unless its own time is up.
-/

namespace UnitControl

def TimedOut (id : CallerId) (record : List Entry) : Prop :=
  ∃ request d, Entry.enqueued (.submit id request) ∈ record ∧
    Entry.answered id (.job (.error (.jobTimeout request.unit d))) ∈ record

theorem TimedOut.mono {id : CallerId} {l l' : List Entry} (h : TimedOut id l) (hs : l ⊆ l') :
    TimedOut id l' := by
  obtain ⟨request, d, he, ha⟩ := h
  exact ⟨request, d, hs he, hs ha⟩

namespace Wait

/-- A caller that waits for the dispatcher has sent it a command. -/
def Accords (record : List Entry) (id : CallerId) : Wait → Prop
  | job limit => ∃ request, Entry.enqueued (.submit id request) ∈ record ∧
      ∀ time err, limit = some (time, err) → ∃ d, err = .jobTimeout request.unit d
  | pending => Entry.enqueued (.count id) ∈ record
  | listing => listing.Suits id
  | query q => (query q).Suits id
  | operation op finish => (operation op finish).Suits id

def IsForReply : Wait → Prop
  | job _ | pending => True
  | _ => False

theorem Accords.mono {l l' : List Entry} {id : CallerId} {w : Wait} (h : w.Accords l id)
    (hs : l ⊆ l') : w.Accords l' id := by
  cases w with
  | job limit =>
    obtain ⟨request, he, hl⟩ := h
    exact ⟨request, hs he, hl⟩
  | pending => exact hs h
  | listing => exact h
  | query q => exact h
  | operation op finish => exact h

theorem Suits.accords {l : List Entry} {id : CallerId} {w : Wait} (h : w.Suits id) :
    w.Accords l id := by
  cases w with
  | job limit => exact h.elim
  | pending => exact h.elim
  | listing => exact h
  | query q => exact h
  | operation op finish => exact h

end Wait

namespace Entry

/-- The entries that tell of commands and of answers. -/
def IsExchange : Entry → Prop
  | enqueued _ | answered .. => True
  | _ => False

end Entry

namespace Engine

structure Orderly (e : Engine) : Prop where
  waits : ∀ id w, e.callers.get? id = some w → id < e.fresh ∧ w.Accords e.record id
  slots_nodup : e.dispatcher.slots.Nodup
  slots : ∀ id ∈ e.dispatcher.slots,
    (∃ w, e.callers.get? id = some w ∧ w.IsForReply) ∨ TimedOut id e.record
  enqueued : ∀ c, Entry.enqueued c ∈ e.record → c.caller < e.fresh
  answered : ∀ id a, Entry.answered id a ∈ e.record →
    id < e.fresh ∧ e.callers.get? id = none

variable {e e' : Engine}

theorem Alike.slots (h : Alike e e') : e'.dispatcher.slots = e.dispatcher.slots := by
  simp only [Dispatcher.slots, h.commands, h.call, h.pending]

namespace Orderly

theorem start (capacity : Nat) (timer : Timer) : (Engine.start capacity timer).Orderly where
  waits id w h := by simp [Engine.start] at h
  slots_nodup := List.nodup_nil
  slots id h := by
    simp [Engine.start, Dispatcher.start, Dispatcher.slots, Stage.call?, Table.values,
      Table.empty] at h
  enqueued c h := by simp [Engine.start, Engine.record] at h
  answered id a h := by simp [Engine.start, Engine.record] at h

theorem extend (h : e.Orderly) {l : List Entry} (hf : e.fresh ≤ e'.fresh)
    (hc : e'.callers = e.callers) (hs : e'.dispatcher.slots = e.dispatcher.slots)
    (hr : e'.record = l ++ e.record) (hl : ∀ entry ∈ l, ¬entry.IsExchange) : e'.Orderly := by
  have hsub : e.record ⊆ e'.record := hr ▸ List.subset_append_right l e.record
  have hold : ∀ entry : Entry, entry.IsExchange → entry ∈ e'.record → entry ∈ e.record := by
    intro entry hx hm
    rw [hr] at hm
    exact (List.mem_append.1 hm).resolve_left fun hm => hl entry hm hx
  constructor
  · intro id w hw
    obtain ⟨hlt, ha⟩ := h.waits id w (hc ▸ hw)
    exact ⟨Nat.lt_of_lt_of_le hlt hf, ha.mono hsub⟩
  · rw [hs]
    exact h.slots_nodup
  · intro id hid
    rw [hc]
    exact (h.slots id (hs ▸ hid)).imp_right fun ht => ht.mono hsub
  · intro c hm
    exact Nat.lt_of_lt_of_le (h.enqueued c (hold _ trivial hm)) hf
  · intro id a hm
    obtain ⟨hlt, hn⟩ := h.answered id a (hold _ trivial hm)
    exact ⟨Nat.lt_of_lt_of_le hlt hf, hc ▸ hn⟩

theorem alike (ha : Alike e e') (h : e.Orderly) : e'.Orderly :=
  h.extend (l := []) (Nat.le_of_eq ha.fresh.symm) ha.callers ha.slots ha.record (by simp)

theorem note (h : e.Orderly) {entry : Entry} (hm : entry.isMilestone = true)
    (hx : ¬entry.IsExchange) : (e.note entry).Orderly := by
  refine h.extend (l := [entry]) (Nat.le_refl _) rfl rfl ?_ (by simpa using hx)
  rw [record_note, if_pos hm]
  rfl

theorem slots_lt (h : e.Orderly) {id : CallerId} (hid : id ∈ e.dispatcher.slots) :
    id < e.fresh := by
  obtain ⟨w, hw, -⟩ | ⟨request, d, he, -⟩ := h.slots id hid
  · exact (h.waits id w hw).1
  · exact h.enqueued _ he

theorem callers_fresh (h : e.Orderly) : e.callers.get? e.fresh = none := by
  cases hw : e.callers.get? e.fresh with
  | none => rfl
  | some w => exact absurd (h.waits _ w hw).1 (Nat.lt_irrefl _)

theorem not_enqueued_fresh (h : e.Orderly) {c : Command} (hc : c.caller = e.fresh) :
    Entry.enqueued c ∉ e.record := by
  intro hm
  exact Nat.lt_irrefl _ (hc ▸ h.enqueued c hm)

theorem not_answered_fresh (h : e.Orderly) (a : Answer) :
    Entry.answered e.fresh a ∉ e.record := by
  intro hm
  exact Nat.lt_irrefl _ (h.answered _ a hm).1

theorem answer (h : e.Orderly) {id : CallerId} {a : Answer}
    (hid : id ∈ e.dispatcher.slots → TimedOut id (e.answer id a).record) :
    (e.answer id a).Orderly := by
  have hsub := record_answer_subset e id a
  constructor
  · intro c w hw
    rw [get?_callers_answer] at hw
    split at hw
    · cases hw
    · obtain ⟨hlt, ha⟩ := h.waits c w hw
      rw [fresh_answer]
      exact ⟨hlt, ha.mono hsub⟩
  · rw [dispatcher_answer]
    exact h.slots_nodup
  · intro c hc
    rw [dispatcher_answer] at hc
    by_cases hci : c = id
    · exact .inr (hci ▸ hid (hci ▸ hc))
    · rw [get?_callers_answer, if_neg hci]
      exact (h.slots c hc).imp_right fun ht => ht.mono hsub
  · intro c hc
    rw [fresh_answer]
    rw [record_answer] at hc
    split at hc
    · exact h.enqueued c (by simpa using hc)
    · exact h.enqueued c hc
  · intro c b hb
    rw [fresh_answer, get?_callers_answer]
    cases hw : e.callers.get? id with
    | none =>
      rw [record_answer_of_none hw] at hb
      obtain ⟨hlt, hn⟩ := h.answered c b hb
      refine ⟨hlt, ?_⟩
      split
      · rfl
      · exact hn
    | some w =>
      rw [record_answer_of_waits hw] at hb
      rcases List.mem_cons.1 hb with hb | hb
      · cases hb
        exact ⟨(h.waits id w hw).1, if_pos rfl⟩
      · obtain ⟨hlt, hn⟩ := h.answered c b hb
        refine ⟨hlt, ?_⟩
        split
        · rfl
        · exact hn

theorem dispatch (h : e.Orderly) {r : Dispatcher × List Reply}
    (hc : e.dispatcher.Conserves r) : (e.dispatch r).Orderly := by
  obtain ⟨d, replies⟩ := r
  have hd : (e.dispatch (d, replies)).dispatcher = d := dispatcher_answerAll _ _
  have hf : (e.dispatch (d, replies)).fresh = e.fresh := fresh_answerAll _ _
  have hg : ∀ c, (e.dispatch (d, replies)).callers.get? c =
      if c ∈ replies.map Prod.fst then none else e.callers.get? c :=
    get?_callers_answerAll _ _
  obtain ⟨answers, hr, ha⟩ := record_answerAll { e with dispatcher := d } replies
  have hr : (e.dispatch (d, replies)).record = answers ++ e.record := hr
  have hsub : e.record ⊆ (e.dispatch (d, replies)).record :=
    hr ▸ List.subset_append_right answers e.record
  obtain ⟨-, hn, hdisj⟩ := List.nodup_append.1 (hc.nodup_iff.2 h.slots_nodup)
  constructor
  · intro c w hw
    rw [hg] at hw
    split at hw
    · cases hw
    · obtain ⟨hlt, ha⟩ := h.waits c w hw
      exact ⟨hf ▸ hlt, ha.mono hsub⟩
  · rw [hd]
    exact hn
  · intro c hcs
    rw [hd] at hcs
    have hnot : c ∉ replies.map Prod.fst := fun hm => hdisj c hm c hcs rfl
    rw [hg, if_neg hnot]
    have hmem : c ∈ e.dispatcher.slots := hc.subset (List.mem_append_right _ hcs)
    exact (h.slots c hmem).imp_right fun ht => ht.mono hsub
  · intro c hm
    rw [hf]
    rw [hr] at hm
    rcases List.mem_append.1 hm with hm | hm
    · obtain ⟨reply, -, he, -⟩ := ha _ hm
      cases he
    · exact h.enqueued c hm
  · intro c a hm
    rw [hf, hg]
    rw [hr] at hm
    rcases List.mem_append.1 hm with hm | hm
    · obtain ⟨reply, hreply, he, hw⟩ := ha _ hm
      cases he
      obtain ⟨w, hw⟩ := Option.isSome_iff_exists.1 hw
      exact ⟨(h.waits _ w hw).1, if_pos (List.mem_map_of_mem hreply)⟩
    · obtain ⟨hlt, hn⟩ := h.answered c a hm
      refine ⟨hlt, ?_⟩
      split
      · rfl
      · exact hn

theorem enrol (h : e.Orderly) {w : Wait} (hw : w.Suits e.fresh) :
    ({ e with fresh := e.fresh + 1 }.await e.fresh w).Orderly := by
  have hg : ∀ c, (e.callers.put e.fresh w).get? c =
      if c = e.fresh then some w else e.callers.get? c := e.callers.get?_put e.fresh w
  refine ⟨?_, h.slots_nodup, ?_, ?_, ?_⟩
  · intro c w' hw'
    have hw' : (e.callers.put e.fresh w).get? c = some w' := hw'
    rw [hg] at hw'
    split at hw'
    · rename_i hc
      cases hw'
      subst hc
      exact ⟨Nat.lt_succ_self _, hw.accords⟩
    · obtain ⟨hlt, ha⟩ := h.waits c w' hw'
      exact ⟨Nat.lt_succ_of_lt hlt, ha⟩
  · intro c hc
    have hne : c ≠ e.fresh := Nat.ne_of_lt (h.slots_lt hc)
    refine (h.slots c hc).imp_left ?_
    rintro ⟨w', hw', hr⟩
    exact ⟨w', (hg c).trans ((if_neg hne).trans hw'), hr⟩
  · intro c hm
    exact Nat.lt_succ_of_lt (h.enqueued c hm)
  · intro c a hm
    obtain ⟨hlt, hn⟩ := h.answered c a hm
    exact ⟨Nat.lt_succ_of_lt hlt, (hg c).trans ((if_neg (Nat.ne_of_lt hlt)).trans hn)⟩

theorem send (h : e.Orderly) {w : Wait} {c : Command} (hc : c.caller = e.fresh)
    (hw : w.IsForReply) (ha : w.Accords (.enqueued c :: e.record) e.fresh) :
    (({ e with fresh := e.fresh + 1 }.await e.fresh w).send c).Orderly := by
  have hg : ∀ id, (e.callers.put e.fresh w).get? id =
      if id = e.fresh then some w else e.callers.get? id := e.callers.get?_put e.fresh w
  have hr : (({ e with fresh := e.fresh + 1 }.await e.fresh w).send c).record =
      .enqueued c :: e.record := record_note _ _
  have hsub : e.record ⊆ .enqueued c :: e.record := List.subset_cons_self _ _
  have hp : (e.dispatcher.enqueue c).slots.Perm (e.fresh :: e.dispatcher.slots) := by
    simp only [Dispatcher.slots, Dispatcher.enqueue, List.map_append, List.map_cons, List.map_nil,
      hc, List.append_assoc, List.singleton_append]
    exact List.perm_middle
  constructor
  · intro id w' hw'
    have hw' : (e.callers.put e.fresh w).get? id = some w' := hw'
    rw [hr]
    rw [hg] at hw'
    split at hw'
    · rename_i hid
      cases hw'
      exact ⟨hid ▸ Nat.lt_succ_self id, hid ▸ ha⟩
    · obtain ⟨hlt, ha⟩ := h.waits id w' hw'
      exact ⟨Nat.lt_succ_of_lt hlt, ha.mono hsub⟩
  · refine hp.nodup_iff.2 (List.nodup_cons.2 ⟨fun hm => ?_, h.slots_nodup⟩)
    exact Nat.lt_irrefl _ (h.slots_lt hm)
  · intro id hid
    rw [hr]
    rcases List.mem_cons.1 (hp.subset hid) with rfl | hid
    · exact .inl ⟨w, (hg _).trans (if_pos rfl), hw⟩
    · have hne : id ≠ e.fresh := Nat.ne_of_lt (h.slots_lt hid)
      obtain ⟨w', hw', hf⟩ | ht := h.slots id hid
      · exact .inl ⟨w', (hg id).trans ((if_neg hne).trans hw'), hf⟩
      · exact .inr (ht.mono hsub)
  · intro c' hm
    rw [hr] at hm
    rcases List.mem_cons.1 hm with hm | hm
    · cases hm
      exact hc ▸ Nat.lt_succ_self _
    · exact Nat.lt_succ_of_lt (h.enqueued c' hm)
  · intro id a hm
    rw [hr] at hm
    obtain ⟨hlt, hn⟩ := h.answered id a (by simpa using hm)
    exact ⟨Nat.lt_succ_of_lt hlt, (hg id).trans ((if_neg (Nat.ne_of_lt hlt)).trans hn)⟩

theorem refuse (h : e.Orderly) (a : Answer) :
    ({ e with fresh := e.fresh + 1 }.note (.answered e.fresh a)).Orderly := by
  have hr : ({ e with fresh := e.fresh + 1 }.note (.answered e.fresh a)).record =
      .answered e.fresh a :: e.record := record_note _ _
  have hsub : e.record ⊆ .answered e.fresh a :: e.record := List.subset_cons_self _ _
  refine ⟨?_, h.slots_nodup, ?_, ?_, ?_⟩
  · intro id w hw
    obtain ⟨hlt, ha⟩ := h.waits id w hw
    exact ⟨Nat.lt_succ_of_lt hlt, ha.mono (hr ▸ hsub)⟩
  · intro id hid
    exact (h.slots id hid).imp_right fun ht => ht.mono (hr ▸ hsub)
  · intro c hm
    rw [hr] at hm
    exact Nat.lt_succ_of_lt (h.enqueued c (by simpa using hm))
  · intro id b hm
    rw [hr] at hm
    rcases List.mem_cons.1 hm with hm | hm
    · cases hm
      exact ⟨Nat.lt_succ_self _, h.callers_fresh⟩
    · obtain ⟨hlt, hn⟩ := h.answered id b hm
      exact ⟨Nat.lt_succ_of_lt hlt, hn⟩

theorem timedOut_of_slot (h : e.Orderly) {id : CallerId} {w : Wait}
    (hw : e.callers.get? id = some w) (hn : ¬w.IsForReply) (hid : id ∈ e.dispatcher.slots) :
    TimedOut id e.record := by
  refine (h.slots id hid).resolve_left ?_
  rintro ⟨w', hw', hf⟩
  rw [hw] at hw'
  cases hw'
  exact hn hf

theorem takeBack (h : e.Orderly) {id : CallerId} {op next : Registry.Operation} {finish : Finish}
    (hw : e.callers.get? id = some (.operation op finish)) (hn : next.newcomer? = none)
    (cause : Error) : (e.await id (.operation next (.fail cause))).Orderly := by
  have hg : ∀ c, (e.await id (.operation next (.fail cause))).callers.get? c =
      if c = id then some (.operation next (.fail cause)) else e.callers.get? c :=
    e.callers.get?_put id _
  refine ⟨?_, h.slots_nodup, ?_, h.enqueued, ?_⟩
  · intro c w' hw'
    rw [hg] at hw'
    split at hw'
    · rename_i hc
      cases hw'
      refine ⟨hc ▸ (h.waits id _ hw).1, ?_, ?_⟩
      · simp [hn]
      · simp
    · exact h.waits c w' hw'
  · intro c hc
    by_cases hci : c = id
    · subst hci
      exact .inr (h.timedOut_of_slot hw (fun hf => hf) hc)
    · rw [hg, if_neg hci]
      exact h.slots c hc
  · intro c a hm
    obtain ⟨hlt, hnone⟩ := h.answered c a hm
    have hci : c ≠ id := by
      rintro rfl
      rw [hw] at hnone
      cases hnone
    exact ⟨hlt, (hg c).trans ((if_neg hci).trans hnone)⟩

theorem settle (h : e.Orderly) (task : Task) (result : Except Error Unit) :
    (e.settle task result).Orderly := by
  obtain ⟨-, hs⟩ | ⟨id, op, finish, -, hw, ⟨next, cause, rfl, hs⟩ | ⟨outcome, hs⟩⟩ :=
    settle_cases e task result
  · rw [hs]
    exact h
  · rw [hs]
    exact h.takeBack hw ((h.waits id _ hw).2.2 next cause rfl) _
  · rw [hs]
    refine h.answer fun hid => ?_
    exact (h.timedOut_of_slot hw (fun hf => hf) hid).mono (record_answer_subset e id _)

/-- Whoever waits for an operation once another one is settled has waited for it before, or takes
an operation back, which brings no feed. -/
theorem operation_of_settle (h : e.Orderly) {task : Task} {r : Registry}
    {result : Except Error Unit} {c : CallerId} {op : Registry.Operation} {finish : Finish}
    (hw : ({ e with registry := r }.settle task result).callers.get? c =
      some (.operation op finish)) :
    (task ≠ .caller c ∧ e.callers.get? c = some (.operation op finish)) ∨
      op.newcomer? = none := by
  obtain ⟨hnot, hs⟩ | ⟨id, op', finish', rfl, hid, ⟨next, cause, rfl, hs⟩ | ⟨outcome, hs⟩⟩ :=
    settle_cases { e with registry := r } task result
  · rw [hs] at hw
    exact .inl ⟨fun ht => hnot c op finish ht hw, hw⟩
  · rw [hs] at hw
    have hw : (e.callers.put id _).get? c = some (.operation op finish) := hw
    rw [Table.get?_put] at hw
    split at hw
    · cases hw
      exact .inr ((h.waits id _ hid).2.2 op cause rfl)
    · rename_i hne
      exact .inl ⟨fun ht => hne (Task.caller.inj ht).symm, hw⟩
  · rw [hs, get?_callers_answer] at hw
    split at hw
    · cases hw
    · rename_i hne
      exact .inl ⟨fun ht => hne (Task.caller.inj ht).symm, hw⟩

theorem book (h : e.Orderly) (task : Task) (p : Registry × Registry.Progress) :
    (e.book task p).Orderly := by
  obtain ⟨r, progress⟩ := p
  have hr : { e with registry := r }.Orderly :=
    h.extend (l := []) (Nat.le_refl _) rfl rfl rfl (by simp)
  cases progress with
  | done result => exact hr.settle task result
  | ask call pause =>
    exact h.extend (l := [_]) (Nat.le_refl _) rfl rfl (record_note _ _)
      (by simp [Entry.IsExchange])

theorem matchReturned (h : e.Orderly) (call : MatchCall) (answer : Except Error Unit) :
    ({ e with holder := none }.note (.matchReturned call answer)).Orderly :=
  h.extend (l := [.matchReturned call answer]) (Nat.le_refl _) rfl rfl (record_note _ _)
    (by simp [Entry.IsExchange])

theorem expire (h : e.Orderly) {id : CallerId} {time : Nat} {err : Error}
    (hw : e.callers.get? id = some (.job (some (time, err)))) :
    (e.answer id (.job (.error err))).Orderly := by
  obtain ⟨-, request, he, hl⟩ := h.waits id _ hw
  obtain ⟨d, rfl⟩ := hl time err rfl
  refine h.answer fun _ => ⟨request, d, ?_, ?_⟩
  · exact record_answer_subset e id _ he
  · rw [record_answer_of_waits hw]
    exact List.mem_cons_self

theorem noteCall (h : e.Orderly) : e.noteCall.Orderly := by
  unfold Engine.noteCall
  split
  · exact h.note rfl id
  · exact h

theorem move (h : e.Orderly) (hm : Move e e') : e'.Orderly := by
  cases hm with
  | rest => exact h
  | number => exact h.extend (l := []) (Nat.le_succ _) rfl rfl rfl (by simp)
  | refuse ha hd => exact h.refuse _
  | enrol hw => exact h.enrol hw
  | submit hs hl => exact h.send rfl trivial ⟨_, List.mem_cons_self, hl⟩
  | count hs => exact h.send rfl trivial List.mem_cons_self
  | @serve id w a hw hk ha =>
    refine h.answer fun hid => ?_
    have hn : ¬w.IsForReply := by
      obtain rfl | ⟨q, rfl⟩ := hk <;> exact fun hf => hf
    exact (h.timedOut_of_slot hw hn hid).mono (record_answer_subset e id a)
  | expire hw => exact h.expire hw
  | operate hh hi => exact h.book _ _
  | resume answer hh => exact (h.matchReturned _ answer).book _ _
  | arrive item =>
    obtain ⟨signals, hd⟩ := e.dispatcher.receive_eq item
    rw [hd]
    exact h.extend (l := [.arrived item]) (Nat.le_refl _) rfl rfl (record_note _ _)
      (by simp [Entry.IsExchange])
  | endSignals => exact h.extend (l := []) (Nat.le_refl _) rfl rfl rfl (by simp)
  | takeCommand hr => exact (h.dispatch (Dispatcher.conserves_takeCommand hr)).noteCall
  | callReturn hs hr => exact (h.note rfl id).dispatch (Dispatcher.conserves_called hs hr)
  | takeSignal hi hr => exact (h.note rfl id).dispatch (Dispatcher.conserves_takeSignal hi hr)
  | stop hs =>
    have hidle := Dispatcher.stage_of_mayStop hs
    exact (h.note rfl id).dispatch (Dispatcher.conserves_stop hidle)

end Orderly

theorem Attained.orderly (h : e.Attained) : e.Orderly := by
  induction h with
  | start capacity timer => exact .start capacity timer
  | alike _ ha ih => exact ih.alike ha
  | move _ hm ih => exact ih.move hm

end Engine

end UnitControl
