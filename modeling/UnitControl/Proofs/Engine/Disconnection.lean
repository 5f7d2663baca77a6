import Mathlib.Data.List.Induction
import UnitControl.Proofs.Engine.Mail
import UnitControl.Proofs.Engine.Completion
import UnitControl.Proofs.Engine.Pursuit

/-!
# Who is told that the engine is disconnected

The dispatcher stops when the signals end or when nobody can send it a command any more, and lets
everybody go. While it runs it lets a caller go in one case only: the path for which the caller
waits is returned to another one. The table of pending jobs has one place for each path.
-/

namespace UnitControl

/-- The call of another caller has just returned the path for which this one waits. -/
def Displaced (c : CallerId) (history : List Entry) : Prop :=
  ∃ c' path earlier, history = .jobReturned c' (.ok path) :: earlier ∧
    Since (Entry.Ends path) (.jobReturned c (.ok path)) earlier

theorem letGo_iff {c : CallerId} {history : List Entry} :
    LetGo c history ↔ Displaced c history ∨ Entry.stopped ∈ history := Iff.rfl

/-- A caller that is displaced while it waits shares its path with the one that takes its place. -/
theorem Displaced.not_pathsApart {c : CallerId} {history : List Entry} (h : Displaced c history)
    (ha : ∀ a, Entry.answered c a ∉ history) : ¬PathsApart history := by
  obtain ⟨c', path, earlier, rfl, hsince⟩ := h
  intro hapart
  obtain ⟨a, hm⟩ := hapart.1 c' path rfl c hsince.mem
  exact ha a (List.mem_cons_of_mem _ hm)

/-- A caller that is told that the engine is disconnected has sent its request, unless the
dispatcher has stopped. -/
def Entry.Excused (history : List Entry) : Entry → Prop
  | answered c (.job (.error (.disconnected _))) =>
    (∃ request, Entry.enqueued (.submit c request) ∈ history) ∨ Entry.stopped ∈ history
  | _ => True

theorem Entry.Excused.mono {entry : Entry} {l l' : List Entry} (h : entry.Excused l)
    (hs : l ⊆ l') : entry.Excused l' := by
  unfold Excused at h ⊢
  split
  · obtain ⟨request, hm⟩ | hm := h
    · exact .inl ⟨request, hs hm⟩
    · exact .inr (hs hm)
  · trivial

theorem Entry.excused_answered {c : CallerId} {a : Answer} {l : List Entry}
    (h : ∀ context, a = .job (.error (.disconnected context)) →
      (∃ request, Entry.enqueued (.submit c request) ∈ l) ∨ Entry.stopped ∈ l) :
    (Entry.answered c a).Excused l := by
  unfold Excused
  split
  · rename_i he
    cases he
    exact h _ rfl
  · trivial

namespace Engine

structure Halts (e : Engine) : Prop where
  halted : e.dispatcher.hasStopped = true ↔ Entry.stopped ∈ e.record
  excused : ∀ entry earlier, entry :: earlier <:+ e.record → entry.Excused earlier

variable {e e' : Engine}

namespace Halts

theorem start (capacity : Nat) (timer : Timer) : (Engine.start capacity timer).Halts where
  halted := by simp [Engine.start, Dispatcher.start, Dispatcher.hasStopped, record]
  excused entry earlier hm := by
    have hnil : entry :: earlier <:+ [] := hm
    simp at hnil

theorem extend (h : e.Halts) {l : List Entry}
    (hd : e'.dispatcher.hasStopped = e.dispatcher.hasStopped) (hr : e'.record = l ++ e.record)
    (hstop : Entry.stopped ∉ l) (hl : ∀ entry ∈ l, entry.Excused e.record) : e'.Halts where
  halted := by
    rw [hd, hr, h.halted, List.mem_append]
    tauto
  excused entry earlier hm := by
    rw [hr] at hm
    clear hr
    induction l with
    | nil => exact h.excused entry earlier hm
    | cons x l ih =>
      rcases List.suffix_cons_iff.1 hm with he | hm
      · cases he
        exact (hl _ List.mem_cons_self).mono (List.subset_append_right _ _)
      · exact ih (fun hs => hstop (List.mem_cons_of_mem _ hs))
          (fun y hy => hl y (List.mem_cons_of_mem _ hy)) hm

theorem alike (ha : Alike e e') (h : e.Halts) : e'.Halts :=
  h.extend (l := []) ha.stopped ha.record (by simp) (by simp)

theorem reply (h : e.Halts) {x : Engine} {l : List Entry} {id : CallerId} {a : Answer}
    (hd : x.dispatcher.hasStopped = e.dispatcher.hasStopped) (hr : x.record = l ++ e.record)
    (hstop : Entry.stopped ∉ l) (hl : ∀ entry ∈ l, entry.Excused e.record)
    (ha : (Entry.answered id a).Excused e.record) : (x.answer id a).Halts := by
  obtain ⟨l', hr', hl'⟩ := record_answer_append x id a
  rw [hr, ← List.append_assoc] at hr'
  refine h.extend (by rwa [dispatcher_answer]) hr' (fun hm => ?_) fun entry hm => ?_
  · rcases List.mem_append.1 hm with hm | hm
    · cases hl' _ hm
    · exact hstop hm
  · rcases List.mem_append.1 hm with hm | hm
    · rw [hl' entry hm]
      exact ha
    · exact hl entry hm

theorem answer (h : e.Halts) {id : CallerId} {a : Answer}
    (ha : (Entry.answered id a).Excused e.record) : (e.answer id a).Halts :=
  h.reply (l := []) rfl rfl (by simp) (by simp) ha

theorem book (h : e.Halts) (task : Task) (p : Registry × Registry.Progress) :
    (e.book task p).Halts := by
  obtain ⟨l, hr, hl⟩ := record_book e task p
  refine h.extend (by rw [dispatcher_book]) hr (fun hm => ?_) fun entry hm => ?_
  · obtain ⟨call, he⟩ | ⟨id, outcome, he⟩ := hl _ hm <;> cases he
  · obtain ⟨call, rfl⟩ | ⟨id, outcome, rfl⟩ := hl entry hm <;> trivial

theorem takeCommand (h : e.Halts) {r : Dispatcher × List Reply}
    (hr : e.dispatcher.takeCommand? = some r) : (e.dispatch r).noteCall.Halts := by
  obtain ⟨hs, ⟨c, request, rest, -, he⟩ | ⟨c, rest, -, he⟩⟩ := takeCommand_turn hr
  · rw [he]
    refine h.extend (l := [.asked (.job c request)]) ?_ (record_note _ _) (by simp) ?_
    · simp only [Dispatcher.hasStopped, hs, note]
    · simp [Entry.Excused]
  · rw [he]
    exact h.reply (l := []) rfl rfl (by simp) (by simp) trivial

theorem callReturn (hcorr : e.Correlates) (h : e.Halts) {c : CallerId} {request : JobRequest}
    {result : Except Error String} {r : Dispatcher × List Reply}
    (hs : e.dispatcher.stage = .calling c request) (hr : e.dispatcher.called? result = some r) :
    ((e.note (.jobReturned c result)).dispatch r).Halts := by
  have hstop (pending : Table String CallerId) : { e.dispatcher with
      stage := .idle, pending := pending }.hasStopped = e.dispatcher.hasStopped := by
    simp only [Dispatcher.hasStopped, hs]
  have hl : ∀ entry ∈ [Entry.jobReturned c result], entry.Excused e.record := by
    simp [Entry.Excused]
  obtain ⟨err, rfl, he⟩ | ⟨path, rfl, ⟨-, he⟩ | ⟨older, hp, he⟩⟩ := callReturn_turn hs hr
  · rw [he]
    have hsent : Called c request e.record := hcorr.out c request (by rw [hs]; rfl)
    refine h.reply (l := [.jobReturned c (.error err)]) (hstop _) (record_note _ _) (by simp) hl ?_
    exact Entry.excused_answered fun _ _ => .inl ⟨request, hsent.2⟩
  · rw [he]
    exact h.extend (l := [.jobReturned c (.ok path)]) (hstop _) (record_note _ _) (by simp) hl
  · rw [he]
    obtain ⟨request', -, hsent⟩ :=
      hcorr.coherent.called_of_returned (hcorr.pending path older hp).mem
    refine h.reply (l := [.jobReturned c (.ok path)]) (hstop _) (record_note _ _) (by simp) hl ?_
    exact Entry.excused_answered fun _ _ => .inl ⟨request', hsent⟩

theorem takeSignal (h : e.Halts) {item : Except Error Signal}
    {rest : List (Except Error Signal)} {r : Dispatcher × List Reply}
    (hi : e.dispatcher.signals = item :: rest) (hr : e.dispatcher.takeSignal? = some r) :
    ((e.note (.tookSignal item)).dispatch r).Halts := by
  have hl : ∀ entry ∈ [Entry.tookSignal item], entry.Excused e.record := by
    simp [Entry.Excused]
  obtain ⟨hs, ⟨path, output, c, -, -, he⟩ | ⟨stage, hstage, -, he⟩⟩ := takeSignal_turn hi hr
  · rw [he]
    exact h.reply (l := [.tookSignal item]) rfl (record_note _ _) (by simp) hl trivial
  · rw [he]
    refine h.extend (l := [.tookSignal item]) ?_ (record_note _ _) (by simp) hl
    obtain rfl | ⟨parcel, rfl⟩ := hstage <;> simp only [Dispatcher.hasStopped, hs, note]

theorem stop (h : e.Halts) : ((e.note .stopped).dispatch e.dispatcher.stop).Halts := by
  let x := { e.note .stopped with dispatcher := e.dispatcher.stop.1 }
  have hrec : x.record = .stopped :: e.record := record_note _ _
  have hstopped : Entry.stopped ∈ x.record := hrec ▸ List.mem_cons_self
  have hx : x.Halts := by
    refine ⟨⟨fun _ => hstopped, fun _ => rfl⟩, fun entry earlier hm => ?_⟩
    rw [hrec] at hm
    rcases List.suffix_cons_iff.1 hm with he | hm
    · cases he
      trivial
    · exact h.excused entry earlier hm
  obtain ⟨answers, hr, ha⟩ := record_answerAll x e.dispatcher.stop.2
  refine hx.extend (by rw [dispatcher_dispatch]) hr (fun hm => ?_) fun entry hm => ?_
  · obtain ⟨reply, -, he, -⟩ := ha _ hm
    cases he
  · obtain ⟨reply, -, rfl, -⟩ := ha entry hm
    exact Entry.excused_answered fun _ _ => .inr hstopped

theorem move (ho : e.Orderly) (hcorr : e.Correlates) (h : e.Halts) (hm : Move e e') :
    e'.Halts := by
  cases hm with
  | rest => exact h
  | number => exact h.extend (l := []) rfl rfl (by simp) (by simp)
  | @refuse a ha hd =>
    refine h.extend (l := [.answered e.fresh a]) rfl (record_note _ _) (by simp) fun entry hm => ?_
    rw [List.mem_singleton.1 hm]
    exact Entry.excused_answered fun context he => .inr (h.halted.1 (hd context he))
  | enrol hw => exact h.extend (l := []) rfl rfl (by simp) (by simp)
  | submit hs hl =>
    exact h.extend (l := [_]) rfl (record_note _ _) (by simp) (by simp [Entry.Excused])
  | count hs =>
    exact h.extend (l := [_]) rfl (record_note _ _) (by simp) (by simp [Entry.Excused])
  | serve hw hk ha => exact h.answer (Entry.excused_answered fun _ he => absurd he (ha _))
  | expire hw =>
    obtain ⟨-, request, hsent, -⟩ := ho.waits _ _ hw
    exact h.answer (Entry.excused_answered fun _ _ => .inl ⟨request, hsent⟩)
  | operate hh hi => exact h.book _ _
  | @resume holder answer hh =>
    have hn : ({ e with holder := none }.note (.matchReturned holder.call answer)).Halts :=
      h.extend (l := [.matchReturned holder.call answer]) rfl (record_note _ _) (by simp)
        (by simp [Entry.Excused])
    exact hn.book _ _
  | arrive item =>
    obtain ⟨signals, hd⟩ := e.dispatcher.receive_eq item
    rw [hd]
    exact h.extend (l := [.arrived item]) rfl (record_note _ _) (by simp) (by simp [Entry.Excused])
  | endSignals => exact h.extend (l := []) rfl rfl (by simp) (by simp)
  | takeCommand hr => exact h.takeCommand hr
  | callReturn hs hr => exact h.callReturn hcorr hs hr
  | takeSignal hi hr => exact h.takeSignal hi hr
  | stop hs => exact h.stop

end Halts

theorem Attained.halts (h : e.Attained) : e.Halts := by
  induction h with
  | start capacity timer => exact .start capacity timer
  | alike _ ha ih => exact ih.alike ha
  | move h hm ih => exact ih.move h.orderly h.correlates hm

/-- The signals have ended and all are taken, or nobody is left who could send a command. -/
def Finished (e : Engine) : Prop :=
  (e.dispatcher.ended = true ∧ e.dispatcher.signals = []) ∨
    (e.reachable = false ∧ e.dispatcher.commands = [])

theorem finished_of_mayStop (h : e.dispatcher.mayStop e.reachable = true) : e.Finished := by
  simp only [Dispatcher.mayStop, Bool.and_eq_true, Bool.or_eq_true, List.isEmpty_iff,
    Bool.not_eq_true'] at h
  obtain ⟨-, ⟨hc, hr⟩ | ⟨hs, he⟩⟩ := h
  · exact .inr ⟨hr, hc⟩
  · exact .inl ⟨he, hs⟩

theorem stop_of_step {event : Event} (h : e.step event = some e')
    (hs : e.dispatcher.hasStopped = false) (hs' : e'.dispatcher.hasStopped = true) :
    event = .stop ∧ e.Finished := by
  have hrun : e.mail.position ≠ .stopped := fun hp => by
    rw [hasStopped_iff_position.2 hp] at hs
    cases hs
  have hshift := shift_step h
  have hstop := hasStopped_iff_position.1 hs'
  have hevent : event = .stop := by
    generalize e'.mail = m at hshift hstop
    cases hshift with
    | stop => rfl
    | takeSignal => exact absurd hstop (Position.after_ne_stopped _)
    | collect => cases hstop
    | finish => cases hstop
    | deliver => cases hstop
    | skip => cases hstop
    | _ => exact absurd hstop hrun
  subst hevent
  refine ⟨rfl, ?_⟩
  obtain ⟨e₁, hr, -⟩ := reaction_of_step h
  cases hr with
  | stop hmay => exact finished_of_mayStop hmay

theorem stop_of_run {capacity : Nat} {timer : Timer} {events : List Event}
    (hr : (start capacity timer).run events = some e) (hs : e.dispatcher.hasStopped = true) :
    ∃ before after x, events = before ++ .stop :: after ∧
      (start capacity timer).run before = some x ∧ x.Finished := by
  induction events using List.reverseRecOn generalizing e with
  | nil =>
    cases hr
    cases hs
  | append_singleton events event ih =>
    rw [run_append] at hr
    obtain ⟨x, hx, hlast⟩ := Option.bind_eq_some_iff.1 hr
    obtain ⟨e₁, hstep, he⟩ := Option.bind_eq_some_iff.1 hlast
    cases he
    cases hxs : x.dispatcher.hasStopped with
    | true =>
      obtain ⟨before, after, y, rfl, hy, hf⟩ := ih hx hxs
      exact ⟨before, after ++ [event], y, by simp, hy, hf⟩
    | false =>
      obtain ⟨rfl, hf⟩ := stop_of_step hstep hxs hs
      exact ⟨events, [], x, rfl, hx, hf⟩

theorem disconnected_cases (hcorr : e.Correlates) (h : e.Halts) {later earlier : List Entry}
    {c : CallerId} {context : String}
    (hr : e.record = later ++ .answered c (.job (.error (.disconnected context))) :: earlier) :
    Entry.stopped ∈ earlier ∨
      (∃ before, earlier = .jobReturned c (.error (.disconnected context)) :: before) ∨
      (Error.disconnected context = .dropped ∧ Displaced c earlier ∧ ¬PathsApart earlier) := by
  have hcoh := hcorr.coherent
  rw [hr] at hcoh
  obtain ⟨hnew, hd⟩ : Entry.Justified earlier
      (.answered c (.job (.error (.disconnected context)))) := hcoh.justified
  obtain hown | ⟨hdrop, hgo⟩ | ⟨request, d, -, ht⟩ | hnot := hd
  · exact .inr (.inl hown)
  · obtain hdisp | hstop := letGo_iff.1 hgo
    · exact .inr (.inr ⟨hdrop, hdisp, hdisp.not_pathsApart hnew⟩)
    · exact .inl hstop
  · cases ht
  · have hex := h.excused _ earlier ⟨later, hr.symm⟩
    obtain ⟨request, hm⟩ | hstop := hex
    · exact absurd hm (hnot request)
    · exact .inl hstop

/-- The caller of a job that was begun still waits for it, has the output that the first signal
about the job reports, has given up, or was displaced. -/
theorem returned_cases (h : e.Attained) (hs : e.dispatcher.hasStopped = false) {c : CallerId}
    {path : String} (hm : Entry.jobReturned c (.ok path) ∈ e.record) :
    (e.dispatcher.pending.get? path = some c ∧ ∃ limit, e.callers.get? c = some (.job limit)) ∨
      (∃ id unit word later between earlier,
        e.record = later ++ .answered c (.job (.ok (.ofWord word))) ::
          .tookSignal (.ok (.jobRemoved id path unit word)) ::
            (between ++ .jobReturned c (.ok path) :: earlier) ∧
        ∀ entry ∈ between, ¬entry.Ends path) ∨
      TimedOut c e.record ∨
      ∃ later earlier, e.record = later ++ .answered c (.job (.error .dropped)) :: earlier ∧
        Displaced c earlier := by
  have hcorr := h.correlates
  have hcoh := hcorr.coherent
  have hsame {path' : String} (hm' : Entry.jobReturned c (.ok path') ∈ e.record) : path' = path :=
    Except.ok.inj (hcoh.returned_unique hm' hm)
  obtain ⟨request, hasked, hsent⟩ := hcoh.called_of_returned hm
  obtain ⟨result, ha⟩ | ⟨limit, hw⟩ := h.pursues.pursued c request hsent
  · cases result with
    | ok output =>
      obtain ⟨-, path', id, unit, word, later, between, earlier, hr, rfl, hb, -⟩ :=
        hcoh.of_answered_ok ha
      obtain rfl : path' = path := hsame (by simp [hr])
      exact .inr (.inl ⟨id, unit, word, later, between, earlier, hr, hb⟩)
    | error err =>
      obtain ⟨-, later, earlier, hr, -⟩ | ⟨rfl, later, earlier, hr, hgo⟩ |
        ⟨request', d, hsent', rfl⟩ | hnot := hcoh.of_answered_error ha
      · have hown : Entry.jobReturned c (.error err) ∈ e.record := by simp [hr]
        cases hcoh.returned_unique hown hm
      · obtain hdisp | hstop := letGo_iff.1 hgo
        · exact .inr (.inr (.inr ⟨later, earlier, hr, hdisp⟩))
        · have hstopped : Entry.stopped ∈ e.record := by
            rw [hr]
            exact List.mem_append_right _ (List.mem_cons_of_mem _ hstop)
          rw [h.halts.halted.2 hstopped] at hs
          cases hs
      · exact .inr (.inr (.inl ⟨request', d, hsent', ha⟩))
      · exact absurd hsent (hnot request)
  · obtain ⟨request', hq⟩ | ⟨request', hcall⟩ | ⟨path', hp⟩ := h.pursues.tracked hs c limit hw
    · exact absurd hasked ((hcorr.queued c request' hq).2 request)
    · exact absurd hm (hcoh.not_returned (hcorr.out c request' hcall) _)
    · obtain rfl := hsame (hcorr.pending path' c hp).mem
      exact .inl ⟨hp, limit, hw⟩

theorem step_displaces {c older : CallerId} {request : JobRequest} {path : String} {w : Wait}
    (hs : e.dispatcher.stage = .calling c request)
    (hp : e.dispatcher.pending.get? path = some older) (hw : e.callers.get? older = some w) :
    ∃ e', e.step (.jobReturned (.ok path)) = some e' ∧ e'.dispatcher.hasStopped = false ∧
      e'.record = .answered older (.job (.error .dropped)) :: .jobReturned c (.ok path) ::
        e.record := by
  obtain ⟨r, hr⟩ : ∃ r, e.dispatcher.called? (.ok path) = some r := by
    simp only [Dispatcher.called?, hs]
    exact ⟨_, rfl⟩
  obtain ⟨err, hok, -⟩ | ⟨path', hok, ⟨hnone, -⟩ | ⟨older', hp', he⟩⟩ := callReturn_turn hs hr
  · cases hok
  · cases hok
    rw [hp] at hnone
    cases hnone
  · cases hok
    obtain rfl := Option.some.inj (hp'.symm.trans hp)
    have hreact : e.react (.jobReturned (.ok path)) =
        some ((e.note (.jobReturned c (.ok path))).dispatch r) := by
      simp only [react, jobReturned?, hs, hr, Option.map_some]
    obtain ⟨e', hstep⟩ : ∃ e', e.step (.jobReturned (.ok path)) = some e' := by
      simp only [step, hreact, Option.map_some]
      exact ⟨_, rfl⟩
    have ha : Alike ((e.note (.jobReturned c (.ok path))).dispatch r) e' := by
      obtain ⟨e₁, h₁, rfl⟩ := Option.map_eq_some_iff.1 hstep
      cases hreact.symm.trans h₁
      split
      · exact alike_setDispatcher (desk_rouse _)
      · exact .refl _
    rw [he] at ha
    refine ⟨e', hstep, ?_, ?_⟩
    · rw [ha.stopped, dispatcher_answer]
      rfl
    · let x := { e with dispatcher := { e.dispatcher with
        stage := .idle, pending := e.dispatcher.pending.put path c } }.note
          (.jobReturned c (.ok path))
      have hx : x.callers.get? older' = some w := hw
      have hrec : x.record = .jobReturned c (.ok path) :: e.record := record_note _ _
      rw [ha.record, ← hrec]
      exact record_answer_of_waits hx _

/-- In every run a caller is told that the engine is disconnected only if the dispatcher has
stopped, if that is what its own call has returned, or if the path for which it waits has just been
returned to another caller. The dispatcher has stopped only if the signals have ended or nobody is
left to send a command. While it runs, the caller of a job that was begun waits, is served, or is
displaced; and whoever waits for a path that is returned again is displaced. -/
theorem run_disconnects {capacity : Nat} {timer : Timer} {events : List Event}
    (hr : (start capacity timer).run events = some e) :
    (∀ later earlier c context,
      e.record = later ++ .answered c (.job (.error (.disconnected context))) :: earlier →
        Entry.stopped ∈ earlier ∨
          (∃ before, earlier = .jobReturned c (.error (.disconnected context)) :: before) ∨
          (Error.disconnected context = .dropped ∧ Displaced c earlier ∧
            ¬PathsApart earlier)) ∧
    (Entry.stopped ∈ e.record → ∃ before after x, events = before ++ .stop :: after ∧
      (start capacity timer).run before = some x ∧ x.Finished) ∧
    (Entry.stopped ∉ e.record → ∀ c path, Entry.jobReturned c (.ok path) ∈ e.record →
      (e.dispatcher.pending.get? path = some c ∧ ∃ limit, e.callers.get? c = some (.job limit)) ∨
        (∃ id unit word later between earlier,
          e.record = later ++ .answered c (.job (.ok (.ofWord word))) ::
            .tookSignal (.ok (.jobRemoved id path unit word)) ::
              (between ++ .jobReturned c (.ok path) :: earlier) ∧
          ∀ entry ∈ between, ¬entry.Ends path) ∨
        TimedOut c e.record ∨
        ∃ later earlier, e.record = later ++ .answered c (.job (.error .dropped)) :: earlier ∧
          Displaced c earlier) ∧
    ∀ c older request path w, e.dispatcher.stage = .calling c request →
      e.dispatcher.pending.get? path = some older → e.callers.get? older = some w →
        ∃ e', e.step (.jobReturned (.ok path)) = some e' ∧ e'.dispatcher.hasStopped = false ∧
          e'.record = .answered older (.job (.error .dropped)) :: .jobReturned c (.ok path) ::
            e.record := by
  have h : e.Attained := (Attained.start capacity timer).run hr
  refine ⟨fun later earlier c context => disconnected_cases h.correlates h.halts, fun hm => ?_,
    fun hm c path => returned_cases h ?_, fun c older request path w => step_displaces⟩
  · exact stop_of_run hr (h.halts.halted.2 hm)
  · exact Bool.eq_false_iff.2 fun hs => hm (h.halts.halted.1 hs)

/-- Two calls return one path, and the job ends once. -/
def merging : List Event :=
  [.call (.submit ⟨"StartUnit", ["a.service", "replace"]⟩ none),
    .call (.submit ⟨"StartUnit", ["a.service", "replace"]⟩ none), .takeCommand,
    .jobReturned (.ok "/job/7"), .takeCommand, .jobReturned (.ok "/job/7"),
    .signal (.ok (.jobRemoved 1 "/job/7" "a.service" "done")), .takeSignal]

/-- The caller of the first call is told that the engine is disconnected, which is not so. -/
theorem run_disconnects_merging :
    ∃ e, (start 1 .exact).run merging = some e ∧ Entry.stopped ∉ e.record ∧ e.reachable = true ∧
      e.dispatcher.ended = false ∧ Entry.answered 1 (.job (.ok .done)) ∈ e.record ∧
      ∃ later earlier, e.record = later ++ .answered 0 (.job (.error .dropped)) :: earlier ∧
        Displaced 0 earlier := by
  obtain ⟨e, hr⟩ : ∃ e, (start 1 .exact).run merging = some e := ⟨_, rfl⟩
  have h := run_disconnects hr
  have hstate : e.record = [.answered 1 (.job (.ok .done)),
        .tookSignal (.ok (.jobRemoved 1 "/job/7" "a.service" "done")),
        .arrived (.ok (.jobRemoved 1 "/job/7" "a.service" "done")),
        .answered 0 (.job (.error .dropped)), .jobReturned 1 (.ok "/job/7"),
        .asked (.job 1 ⟨"StartUnit", ["a.service", "replace"]⟩), .jobReturned 0 (.ok "/job/7"),
        .asked (.job 0 ⟨"StartUnit", ["a.service", "replace"]⟩),
        .enqueued (.submit 1 ⟨"StartUnit", ["a.service", "replace"]⟩),
        .enqueued (.submit 0 ⟨"StartUnit", ["a.service", "replace"]⟩)] ∧
      e.reachable = true ∧ e.dispatcher.ended = false := by
    cases hr
    exact ⟨rfl, rfl, rfl⟩
  obtain ⟨hrec, hreach, hend⟩ := hstate
  have hsplit : e.record = e.record.take 3 ++ .answered 0 (.job (.error .dropped)) ::
      e.record.drop 4 := by
    rw [hrec]
    rfl
  have hdisp : Displaced 0 (e.record.drop 4) := by
    obtain hstop | ⟨before, hown⟩ | ⟨-, hdisp, -⟩ := h.1 _ _ _ _ hsplit
    · simp [hrec] at hstop
    · simp [hrec] at hown
    · exact hdisp
  exact ⟨e, hr, by simp [hrec], hreach, hend, by simp [hrec], _, _, hsplit, hdisp⟩

end Engine

end UnitControl
