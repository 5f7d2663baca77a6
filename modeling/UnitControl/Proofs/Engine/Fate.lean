import UnitControl.Proofs.Engine.Submissions
import UnitControl.Proofs.Engine.Veil

/-!
# What becomes of one caller

A caller that waits for its job waits on as it is, or has an answer, or goes away. Once it waits no
more it gets no other answer.
-/

namespace UnitControl

/-- The answer that an entry tells of, if it is one to this caller. -/
def Entry.answerTo? (c : CallerId) : Entry → Option Answer
  | answered c' a => if c' = c then some a else none
  | _ => none

def replies (c : CallerId) (record : List Entry) : List Answer := told (Entry.answerTo? c) record

theorem replies_append {c : CallerId} {l : List Entry} (h : ∀ entry ∈ l, entry.answerTo? c = none)
    (record : List Entry) : replies c (l ++ record) = replies c record := by
  rw [replies, told_append, told_eq_nil h, List.append_nil, replies]

theorem Entry.answerTo?_of_ne {c id : CallerId} (h : id ≠ c) (a : Answer) :
    (Entry.answered id a).answerTo? c = none :=
  if_neg h

namespace Engine

theorem replies_answer {c : CallerId} {e : Engine} {w : Wait} (h : e.callers.get? c = some w)
    (a : Answer) : replies c (e.answer c a).record = replies c e.record ++ [a] := by
  have ha : (Entry.answered c a).answerTo? c = some a := if_pos rfl
  rw [record_answer_of_waits h]
  exact told_cons_some (Entry.answerTo? c) ha e.record

/-- The caller waits as it did, or it waits no more; if it waited no more before, it has got nothing
new. -/
structure Fate (c : CallerId) (e e' : Engine) : Prop where
  waits : ∀ w, e'.callers.get? c = some w →
    e.callers.get? c = some w ∧ replies c e'.record = replies c e.record
  absent : e.callers.get? c = none →
    e'.callers.get? c = none ∧ replies c e'.record = replies c e.record

def TakesNothingBack (e : Engine) (c : CallerId) : Prop :=
  ∀ op next cause, e.callers.get? c ≠ some (.operation op (.undo next cause))

theorem AwaitsJob.takesNothingBack {c : CallerId} {e : Engine} (h : e.AwaitsJob c) :
    e.TakesNothingBack c := by
  intro op next cause hw
  obtain ⟨limit, hl⟩ := h _ hw
  cases hl

namespace Fate

variable {c : CallerId} {e e' e'' : Engine}

theorem of_eq (hw : e'.callers.get? c = e.callers.get? c)
    (hr : replies c e'.record = replies c e.record) : Fate c e e' :=
  ⟨fun _ h => ⟨hw.symm.trans h, hr⟩, fun h => ⟨hw.trans h, hr⟩⟩

theorem refl (e : Engine) : Fate c e e := .of_eq rfl rfl

theorem trans (h : Fate c e e') (h' : Fate c e' e'') : Fate c e e'' where
  waits w hw := by
    obtain ⟨hw', hr'⟩ := h'.waits w hw
    obtain ⟨hw, hr⟩ := h.waits w hw'
    exact ⟨hw, hr'.trans hr⟩
  absent hw := by
    obtain ⟨hw', hr⟩ := h.absent hw
    obtain ⟨hw'', hr'⟩ := h'.absent hw'
    exact ⟨hw'', hr'.trans hr⟩

theorem takesNothingBack (h : Fate c e e') (hn : e.TakesNothingBack c) : e'.TakesNothingBack c :=
  fun op next cause hw => hn op next cause (h.waits _ hw).1

theorem awaitsJob (h : Fate c e e') (hj : e.AwaitsJob c) : e'.AwaitsJob c := fun w hw =>
  hj w (h.waits w hw).1

theorem alike (h : Alike e e') : Fate c e e' := .of_eq (by rw [h.callers]) (by rw [h.record])

theorem note {entry : Entry} (h : entry.answerTo? c = none) (e : Engine) :
    Fate c e (e.note entry) := by
  refine .of_eq rfl ?_
  rw [record_note]
  split
  · exact replies_append (l := [entry]) (by simpa using h) _
  · rfl

theorem answer (e : Engine) (id : CallerId) (a : Answer) : Fate c e (e.answer id a) := by
  have hw := get?_callers_answer e id a c
  have hr := record_answer e id a
  by_cases hid : c = id
  · subst hid
    rw [if_pos rfl] at hw
    refine ⟨fun w h => ?_, fun h => ⟨hw, ?_⟩⟩
    · rw [hw] at h
      cases h
    · rw [record_answer_of_none h]
  · rw [if_neg hid] at hw
    refine .of_eq hw ?_
    rw [hr]
    split
    · refine replies_append (l := [.answered id a]) ?_ _
      simpa using Entry.answerTo?_of_ne (Ne.symm hid) a
    · rfl

theorem dispatch (e : Engine) (r : Dispatcher × List Reply) : Fate c e (e.dispatch r) :=
  answerAll_induct (I := Fate c e) (.of_eq rfl rfl) fun _ _ _ h => h.trans (answer _ _ _)

theorem await {id : CallerId} (h : id ≠ c) (e : Engine) (w : Wait) : Fate c e (e.await id w) :=
  .of_eq ((e.callers.get?_put id w c).trans (if_neg (Ne.symm h))) rfl

theorem send {id : CallerId} (h : id ≠ c) (e : Engine) (w : Wait) (command : Command) :
    Fate c e ((e.await id w).send command) := by
  let x : Engine :=
    { e.await id w with dispatcher := (e.await id w).dispatcher.enqueue command }
  have hx : Fate c e x := (await h e w).trans (.of_eq rfl rfl)
  exact hx.trans (note rfl x)

theorem settle (hn : e.TakesNothingBack c) (task : Task) (result : Except Error Unit) :
    Fate c e (e.settle task result) := by
  obtain ⟨-, h⟩ | ⟨id, op, finish, -, hw, ⟨next, cause, rfl, h⟩ | ⟨outcome, h⟩⟩ :=
    settle_cases e task result
  · rw [h]
    exact refl e
  · rw [h]
    refine await (fun hid => ?_) e _
    exact hn op next cause (hid ▸ hw)
  · rw [h]
    exact answer e id _

theorem book (hn : e.TakesNothingBack c) (task : Task) (p : Registry × Registry.Progress) :
    Fate c e (e.book task p) := by
  obtain ⟨r, progress⟩ := p
  have hr : Fate c e { e with registry := r } := .of_eq rfl rfl
  cases progress with
  | done result => exact hr.trans (settle (hr.takesNothingBack hn) task result)
  | ask call pause =>
    let x : Engine := { e with registry := r, holder := some ⟨task, call, pause⟩ }
    have hx : Fate c e x := .of_eq rfl rfl
    exact hx.trans (note rfl x)

theorem noteCall (e : Engine) : Fate c e e.noteCall := by
  unfold Engine.noteCall
  split
  · exact note rfl e
  · exact refl e

theorem move (h : Move e e') (hc : c < e.fresh) (hb : e.TakesNothingBack c) : Fate c e e' := by
  have hne : e.fresh ≠ c := Nat.ne_of_gt hc
  have hnumber : Fate c e { e with fresh := e.fresh + 1 } := .of_eq rfl rfl
  cases h with
  | rest => exact refl e
  | number => exact hnumber
  | refuse ha hd => exact hnumber.trans (note (Entry.answerTo?_of_ne hne _) _)
  | enrol hw => exact hnumber.trans (await hne _ _)
  | submit hs hl => exact hnumber.trans (send hne _ _ _)
  | count hs => exact hnumber.trans (send hne _ _ _)
  | serve hw hk ha => exact answer e _ _
  | expire hw => exact answer e _ _
  | operate hh hi => exact book hb _ _
  | @resume holder result hh =>
    let x : Engine := { e with holder := none }
    have hx : Fate c e x := .of_eq rfl rfl
    have hn : Fate c e (x.note (.matchReturned holder.call result)) := hx.trans (note rfl x)
    exact hn.trans (book (hn.takesNothingBack hb) _ _)
  | arrive item =>
    let x : Engine := { e with dispatcher := e.dispatcher.receive item }
    have hx : Fate c e x := .of_eq rfl rfl
    exact hx.trans (note rfl x)
  | endSignals => exact .of_eq rfl rfl
  | takeCommand hr => exact (dispatch e _).trans (noteCall _)
  | @callReturn caller request result r hs hr =>
    have hn : Fate c e (e.note (.jobReturned caller result)) := note rfl e
    exact hn.trans (dispatch _ _)
  | @takeSignal item rest r hi hr =>
    have hn : Fate c e (e.note (.tookSignal item)) := note rfl e
    exact hn.trans (dispatch _ _)
  | stop hs =>
    have hn : Fate c e (e.note .stopped) := note rfl e
    exact hn.trans (dispatch _ _)

theorem step {event : Event} (h : e.step event = some e') (hc : c < e.fresh)
    (hb : e.TakesNothingBack c) : Fate c e e' := by
  obtain ⟨e₁, e₂, h₁, hm, h₂⟩ := moves_of_step h
  have hb₁ := (alike h₁).takesNothingBack hb
  exact ((alike h₁).trans (move hm (h₁.fresh.symm ▸ hc) hb₁)).trans (alike h₂)

theorem run {events : List Event} (h : e.run events = some e') (hc : c < e.fresh)
    (hb : e.TakesNothingBack c) : Fate c e e' := by
  induction events generalizing e with
  | nil =>
    cases h
    exact refl _
  | cons event rest ih =>
    obtain ⟨x, hs, h⟩ := Option.bind_eq_some_iff.1 h
    have hx := step hs hc hb
    exact hx.trans (ih h (Nat.lt_of_lt_of_le hc (fresh_le_of_step hs)) (hx.takesNothingBack hb))

theorem act {a : Act} (h : e.act a = some e') (hc : c < e.fresh) (hj : e.AwaitsJob c) :
    Fate c e e' ∧ c < e'.fresh := by
  refine ⟨?_, Nat.lt_of_lt_of_le hc (fresh_le_of_act h)⟩
  obtain ⟨event, rfl, hs⟩ | ⟨id, w, rfl, hw, hf, halike⟩ := act_cases h
  · exact step hs hc hj.takesNothingBack
  · refine Fate.trans ?_ (alike halike)
    have herase := e.callers.get?_erase id c
    refine ⟨fun w' hw' => ?_, fun habsent => ⟨?_, rfl⟩⟩
    · rw [herase] at hw'
      split at hw'
      · cases hw'
      · exact ⟨hw', rfl⟩
    · rw [herase, habsent, ite_self]

theorem acts {l : List Act} (h : e.acts l = some e') (hc : c < e.fresh) (hj : e.AwaitsJob c) :
    Fate c e e' ∧ c < e'.fresh := by
  induction l generalizing e with
  | nil =>
    cases h
    exact ⟨refl _, hc⟩
  | cons a rest ih =>
    obtain ⟨x, ha, h⟩ := Option.bind_eq_some_iff.1 h
    obtain ⟨hx, hcx⟩ := act ha hc hj
    obtain ⟨hrest, hlt⟩ := ih h hcx (hx.awaitsJob hj)
    exact ⟨hx.trans hrest, hlt⟩

end Fate
end Engine

end UnitControl
