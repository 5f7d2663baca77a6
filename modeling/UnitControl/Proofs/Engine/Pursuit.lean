import UnitControl.Proofs.Engine.Correlation

/-!
# No submission is forgotten

A caller that has sent a request waits until it is answered, and while it waits a dispatcher that
runs keeps its request in the queue, has its call out, or keeps it in the table of pending jobs.
-/

namespace UnitControl

namespace Coherent

variable {l : List Entry}

theorem enqueued_unique (h : Coherent l) {x y : Command} (hx : Entry.enqueued x ∈ l)
    (hy : Entry.enqueued y ∈ l) (hc : x.caller = y.caller) : x = y := by
  induction l with
  | nil => cases hx
  | cons entry earlier ih =>
    rcases List.mem_cons.1 hx with rfl | hx'
    · rcases List.mem_cons.1 hy with hy' | hy'
      · exact (Entry.enqueued.inj hy').symm
      · exact absurd hc.symm (h.1.1 y hy')
    · rcases List.mem_cons.1 hy with rfl | hy'
      · exact absurd hc (h.1.1 x hx')
      · exact ih h.2 hx' hy'

theorem returned_unique (h : Coherent l) {c : CallerId} {result result' : Except Error String}
    (hm : Entry.jobReturned c result ∈ l) (hm' : Entry.jobReturned c result' ∈ l) :
    result = result' := by
  induction l with
  | nil => cases hm
  | cons entry earlier ih =>
    rcases List.mem_cons.1 hm with rfl | hold
    · rcases List.mem_cons.1 hm' with hnew | hold'
      · cases hnew
        rfl
      · obtain ⟨request, hcalled⟩ : Entry.Justified earlier (.jobReturned c result) := h.1
        exact absurd hold' (h.2.not_returned hcalled result')
    · rcases List.mem_cons.1 hm' with rfl | hold'
      · obtain ⟨request, hcalled⟩ : Entry.Justified earlier (.jobReturned c result') := h.1
        exact absurd hold (h.2.not_returned hcalled result)
      · exact ih h.2 hold hold'

theorem called_of_returned (h : Coherent l) {c : CallerId} {result : Except Error String}
    (hm : Entry.jobReturned c result ∈ l) :
    ∃ request, Entry.asked (.job c request) ∈ l ∧ Entry.enqueued (.submit c request) ∈ l := by
  obtain ⟨later, earlier, rfl⟩ := List.append_of_mem hm
  obtain ⟨request, hcall, hsub⟩ : Entry.Justified earlier (.jobReturned c result) := h.justified
  have hsubset : earlier ⊆ later ++ .jobReturned c result :: earlier := fun x hx =>
    List.mem_append_right _ (List.mem_cons_of_mem _ hx)
  exact ⟨request, hsubset hcall.mem, hsubset hsub⟩

end Coherent

/-- The dispatcher has the submission of a caller before it. -/
def Dispatcher.Tracks (d : Dispatcher) (c : CallerId) : Prop :=
  (∃ request, .submit c request ∈ d.commands) ∨
    (∃ request, d.stage.call? = some (c, request)) ∨ ∃ path, d.pending.get? path = some c

namespace Engine

structure Pursues (e : Engine) : Prop where
  queued : ∀ command ∈ e.dispatcher.commands, Entry.enqueued command ∈ e.record
  tracked : e.dispatcher.hasStopped = false → ∀ c limit,
    e.callers.get? c = some (.job limit) → e.dispatcher.Tracks c
  pursued : ∀ c request, Entry.enqueued (.submit c request) ∈ e.record →
    (∃ result, Entry.answered c (.job result) ∈ e.record) ∨
      ∃ limit, e.callers.get? c = some (.job limit)

variable {e e' : Engine}

namespace Pursues

theorem start (capacity : Nat) (timer : Timer) : (Engine.start capacity timer).Pursues where
  queued command hm := by cases hm
  tracked _ c limit hw := by cases hw
  pursued c request hm := by cases hm

theorem extend (h : e.Pursues) {l : List Entry}
    (hc : e'.dispatcher.commands ⊆ e.dispatcher.commands) (hr : e'.record = l ++ e.record)
    (hl : ∀ command, Entry.enqueued command ∉ l)
    (ht : e'.dispatcher.hasStopped = false → e.dispatcher.hasStopped = false ∧
      ∀ c limit, e'.callers.get? c = some (.job limit) →
        e.callers.get? c = some (.job limit) ∧ (e.dispatcher.Tracks c → e'.dispatcher.Tracks c))
    (hp : ∀ c limit, e.callers.get? c = some (.job limit) →
      (∃ result, Entry.answered c (.job result) ∈ e'.record) ∨
        e'.callers.get? c = some (.job limit)) : e'.Pursues where
  queued command hm := by
    rw [hr]
    exact List.mem_append_right _ (h.queued command (hc hm))
  tracked hs c limit hw := by
    obtain ⟨hs, hkeep⟩ := ht hs
    obtain ⟨hw, htracks⟩ := hkeep c limit hw
    exact htracks (h.tracked hs c limit hw)
  pursued c request hm := by
    rw [hr] at hm
    have hm := (List.mem_append.1 hm).resolve_left (hl _)
    obtain ⟨result, ha⟩ | ⟨limit, hw⟩ := h.pursued c request hm
    · rw [hr]
      exact .inl ⟨result, List.mem_append_right _ ha⟩
    · exact (hp c limit hw).imp_right fun hw => ⟨limit, hw⟩

theorem alike (ha : Alike e e') (h : e.Pursues) : e'.Pursues := by
  have ht : ∀ c, e'.dispatcher.Tracks c ↔ e.dispatcher.Tracks c := fun c => by
    simp only [Dispatcher.Tracks, ha.commands, ha.call, ha.pending]
  refine h.extend (l := []) (by rw [ha.commands]; exact List.Subset.refl _) ha.record (by simp)
    (fun hs => ⟨ha.stopped ▸ hs, fun c limit hw => ⟨ha.callers ▸ hw, (ht c).2⟩⟩)
    fun c limit hw => .inr (ha.callers ▸ hw)

theorem append (h : e.Pursues) {l : List Entry} (hd : e'.dispatcher = e.dispatcher)
    (hc : e'.callers = e.callers) (hr : e'.record = l ++ e.record)
    (hl : ∀ command, Entry.enqueued command ∉ l) : e'.Pursues := by
  refine h.extend (by rw [hd]; exact List.Subset.refl _) hr hl (fun hs => ?_) fun c limit hw => ?_
  · rw [hd] at hs ⊢
    exact ⟨hs, fun c limit hw => ⟨hc ▸ hw, id⟩⟩
  · exact .inr (hc ▸ hw)

/-- The caller of a submission is answered with the result of a job, and the dispatcher lets go of
nobody else. -/
theorem reply (h : e.Pursues) {x : Engine} {l : List Entry} {id : CallerId} {a : Answer}
    (hw : x.callers = e.callers) (hr : x.record = l ++ e.record)
    (hl : ∀ command, Entry.enqueued command ∉ l)
    (hc : x.dispatcher.commands ⊆ e.dispatcher.commands)
    (hs : x.dispatcher.hasStopped = false → e.dispatcher.hasStopped = false)
    (ht : ∀ c, c ≠ id → e.dispatcher.Tracks c → x.dispatcher.Tracks c)
    (ha : ∀ limit, e.callers.get? id = some (.job limit) → ∃ result, a = .job result) :
    (x.answer id a).Pursues := by
  obtain ⟨l', hr', hl'⟩ := record_answer_append x id a
  rw [hr, ← List.append_assoc] at hr'
  refine h.extend (by rwa [dispatcher_answer]) hr' (fun command hm => ?_) (fun hstop => ?_)
    fun c limit hc => ?_
  · rcases List.mem_append.1 hm with hm | hm
    · cases hl' _ hm
    · exact hl command hm
  · rw [dispatcher_answer] at hstop ⊢
    refine ⟨hs hstop, fun c limit hc => ?_⟩
    rw [get?_callers_answer] at hc
    split at hc
    · cases hc
    · rename_i hne
      exact ⟨hw ▸ hc, ht c hne⟩
  · rw [get?_callers_answer]
    by_cases hid : c = id
    · subst hid
      obtain ⟨result, rfl⟩ := ha limit hc
      rw [record_answer_of_waits (hw ▸ hc)]
      exact .inl ⟨result, List.mem_cons_self⟩
    · rw [if_neg hid, hw]
      exact .inr hc

theorem answer (h : e.Pursues) {id : CallerId} {a : Answer}
    (ha : ∀ limit, e.callers.get? id = some (.job limit) → ∃ result, a = .job result) :
    (e.answer id a).Pursues :=
  h.reply (l := []) rfl rfl (by simp) (List.Subset.refl _) (fun hs => hs) (fun _ _ ht => ht) ha

theorem not_job_of_count (ho : e.Orderly) (hcorr : e.Correlates) (h : e.Pursues) {c : CallerId}
    (hm : .count c ∈ e.dispatcher.commands) (limit : Option (Nat × Error)) :
    e.callers.get? c ≠ some (.job limit) := by
  intro hw
  obtain ⟨-, request, hsub, -⟩ := ho.waits c _ hw
  cases hcorr.coherent.enqueued_unique (h.queued _ hm) hsub rfl

theorem enrol (ho : e.Orderly) (h : e.Pursues) {w : Wait} (hw : w.Suits e.fresh) :
    ({ e with fresh := e.fresh + 1 }.await e.fresh w).Pursues := by
  have hget : ∀ c, (e.callers.put e.fresh w).get? c = _ := e.callers.get?_put e.fresh w
  refine h.extend (l := []) (List.Subset.refl _) rfl (by simp)
    (fun hs => ⟨hs, fun c limit hc => ?_⟩) fun c limit hc => .inr ?_
  · have hc : (e.callers.put e.fresh w).get? c = some (.job limit) := hc
    rw [hget] at hc
    split at hc
    · cases hc
      exact hw.elim
    · exact ⟨hc, id⟩
  · refine (hget c).trans ?_
    rw [if_neg, hc]
    rintro rfl
    rw [ho.callers_fresh] at hc
    cases hc

theorem send (ho : e.Orderly) (h : e.Pursues) {w : Wait} {command : Command}
    (hc : command.caller = e.fresh)
    (hw : ∀ limit, w = .job limit → ∃ request, command = .submit e.fresh request)
    (hcommand : ∀ c request, command = .submit c request → ∃ limit, w = .job limit) :
    (({ e with fresh := e.fresh + 1 }.await e.fresh w).send command).Pursues := by
  have hr : (({ e with fresh := e.fresh + 1 }.await e.fresh w).send command).record =
      .enqueued command :: e.record := record_note _ _
  have hget : ∀ c, (({ e with fresh := e.fresh + 1 }.await e.fresh w).send
      command).callers.get? c = _ := e.callers.get?_put e.fresh w
  constructor
  · intro command' hm
    rw [hr]
    rcases List.mem_append.1 hm with hm | hm
    · exact List.mem_cons_of_mem _ (h.queued command' hm)
    · rw [List.mem_singleton.1 hm]
      exact List.mem_cons_self
  · intro hs c limit hwait
    rw [hget] at hwait
    split at hwait
    · rename_i hcid
      subst hcid
      obtain ⟨request, rfl⟩ := hw limit (Option.some.inj hwait)
      exact .inl ⟨request, List.mem_append_right _ List.mem_cons_self⟩
    · exact (h.tracked hs c limit hwait).imp_left
        (Exists.imp fun request hm => List.mem_append_left _ hm)
  · intro c request hm
    rw [hr] at hm ⊢
    rw [hget]
    rcases List.mem_cons.1 hm with hm | hm
    · obtain rfl := Entry.enqueued.inj hm
      obtain ⟨limit, rfl⟩ := hcommand c request rfl
      exact .inr ⟨limit, if_pos hc⟩
    · have hne : c ≠ e.fresh := fun hcid =>
        ho.not_enqueued_fresh (c := .submit c request) hcid hm
      rw [if_neg hne]
      exact (h.pursued c request hm).imp_left
        (Exists.imp fun result ha => List.mem_cons_of_mem _ ha)

theorem book (h : e.Pursues) (task : Task) (p : Registry × Registry.Progress) :
    (e.book task p).Pursues := by
  obtain ⟨r, progress⟩ := p
  have hreg : { e with registry := r }.Pursues := h.append (l := []) rfl rfl rfl (by simp)
  cases progress with
  | ask call pause =>
    exact h.append (l := [.asked (.matchRule call)]) rfl rfl (record_note _ _) (by simp)
  | done result =>
    rw [book_done]
    obtain ⟨-, hs⟩ | ⟨id, op, finish, -, hw, ⟨next, cause, -, hs⟩ | ⟨outcome, hs⟩⟩ :=
      settle_cases { e with registry := r } task result
    · rw [hs]
      exact hreg
    · rw [hs]
      have hget : ∀ c, (e.callers.put id _).get? c = _ :=
        e.callers.get?_put id (.operation next (.fail (.noRuntime "unitlink-cancel" cause)))
      have hw : e.callers.get? id = some (.operation op finish) := hw
      refine h.extend (l := []) (List.Subset.refl _) rfl (by simp)
        (fun hs => ⟨hs, fun c limit hc => ?_⟩) fun c limit hc => .inr ?_
      · have hc : (e.callers.put id _).get? c = some (.job limit) := hc
        rw [hget] at hc
        split at hc
        · cases hc
        · exact ⟨hc, fun ht => ht⟩
      · refine (hget c).trans ?_
        rw [if_neg, hc]
        rintro rfl
        rw [hw] at hc
        cases hc
    · rw [hs]
      refine hreg.answer fun limit hc => ?_
      cases hw.symm.trans hc

theorem takeCommand (ho : e.Orderly) (hcorr : e.Correlates) (h : e.Pursues)
    {r : Dispatcher × List Reply} (hr : e.dispatcher.takeCommand? = some r) :
    (e.dispatch r).noteCall.Pursues := by
  obtain ⟨hs, ⟨c, request, rest, hc, he⟩ | ⟨c, rest, hc, he⟩⟩ := takeCommand_turn hr
  · rw [he]
    refine h.extend (l := [.asked (.job c request)]) ?_ (record_note _ _) (by simp)
      (fun hstop => ⟨?_, fun c' limit hw => ⟨hw, ?_⟩⟩) fun c' limit hw => .inr hw
    · rw [hc]
      exact List.subset_cons_self _ _
    · simp only [Dispatcher.hasStopped, hs]
    · rintro (⟨request', hm⟩ | ⟨request', hcall⟩ | hp)
      · rw [hc] at hm
        rcases List.mem_cons.1 hm with hm | hm
        · cases hm
          exact .inr (.inl ⟨request, rfl⟩)
        · exact .inl ⟨request', hm⟩
      · rw [hs] at hcall
        cases hcall
      · exact .inr (.inr hp)
  · rw [he]
    have hcount : .count c ∈ e.dispatcher.commands := hc ▸ List.mem_cons_self
    refine h.reply (l := []) rfl rfl (by simp) ?_ (fun hs => hs) (fun c' _ ht => ?_) fun limit hw =>
      absurd hw (not_job_of_count ho hcorr h hcount limit)
    · rw [hc]
      exact List.subset_cons_self _ _
    · refine ht.imp_left (Exists.imp fun request hm => ?_)
      rw [hc] at hm
      exact (List.mem_cons.1 hm).resolve_left (by simp)

theorem callReturn (h : e.Pursues) {c : CallerId} {request : JobRequest}
    {result : Except Error String} {r : Dispatcher × List Reply}
    (hs : e.dispatcher.stage = .calling c request) (hr : e.dispatcher.called? result = some r) :
    ((e.note (.jobReturned c result)).dispatch r).Pursues := by
  have hstop : e.dispatcher.hasStopped = false := by simp only [Dispatcher.hasStopped, hs]
  have hput (path : String) {c' : CallerId} (hne : e.dispatcher.pending.get? path ≠ some c')
      (ht : e.dispatcher.Tracks c') : { e.dispatcher with
        stage := .idle, pending := e.dispatcher.pending.put path c }.Tracks c' := by
    obtain hq | ⟨request', hcall⟩ | ⟨path', hp⟩ := ht
    · exact .inl hq
    · rw [hs] at hcall
      cases hcall
      exact .inr (.inr ⟨path, by simp⟩)
    · refine .inr (.inr ⟨path', ?_⟩)
      rw [Table.get?_put, if_neg, hp]
      rintro rfl
      exact hne hp
  obtain ⟨err, rfl, he⟩ | ⟨path, rfl, ⟨hp, he⟩ | ⟨older, hp, he⟩⟩ := callReturn_turn hs hr
  · rw [he]
    refine h.reply (l := [.jobReturned c (.error err)]) rfl (record_note _ _) (by simp)
      (List.Subset.refl _) (fun _ => hstop) (fun c' hne ht => ?_) fun _ _ => ⟨_, rfl⟩
    obtain hq | ⟨request', hcall⟩ | hp := ht
    · exact .inl hq
    · rw [hs] at hcall
      cases hcall
      exact absurd rfl hne
    · exact .inr (.inr hp)
  · rw [he]
    refine h.extend (l := [.jobReturned c (.ok path)]) (List.Subset.refl _) (record_note _ _)
      (by simp) (fun _ => ⟨hstop, fun c' limit hw => ⟨hw, hput path ?_⟩⟩) fun c' limit hw => .inr hw
    rw [hp]
    simp
  · rw [he]
    refine h.reply (l := [.jobReturned c (.ok path)]) rfl (record_note _ _) (by simp)
      (List.Subset.refl _) (fun _ => hstop) (fun c' hne ht => hput path ?_ ht) fun _ _ => ⟨_, rfl⟩
    rw [hp]
    exact fun hc => hne (Option.some.inj hc).symm

theorem takeSignal (h : e.Pursues) {item : Except Error Signal}
    {rest : List (Except Error Signal)} {r : Dispatcher × List Reply}
    (hi : e.dispatcher.signals = item :: rest) (hr : e.dispatcher.takeSignal? = some r) :
    ((e.note (.tookSignal item)).dispatch r).Pursues := by
  obtain ⟨hs, ⟨path, output, c, -, hp, he⟩ | ⟨stage, -, -, he⟩⟩ := takeSignal_turn hi hr
  · rw [he]
    refine h.reply (l := [.tookSignal item]) rfl (record_note _ _) (by simp)
      (List.Subset.refl _) (fun hstop => hstop) (fun c' hne ht => ?_) fun _ _ => ⟨_, rfl⟩
    refine ht.imp_right (Or.imp_right (Exists.imp fun path' hp' => ?_))
    refine (e.dispatcher.pending.get?_erase path path').trans ?_
    rw [if_neg, hp']
    rintro rfl
    exact hne (Option.some.inj (hp'.symm.trans hp))
  · rw [he]
    refine h.extend (l := [.tookSignal item]) (List.Subset.refl _) (record_note _ _) (by simp)
      (fun _ => ⟨?_, fun c' limit hw => ⟨hw, fun ht => ?_⟩⟩) fun c' limit hw => .inr hw
    · simp only [Dispatcher.hasStopped, hs]
    · refine ht.imp_right (Or.imp_left ?_)
      rintro ⟨request, hcall⟩
      rw [hs] at hcall
      cases hcall

/-- A caller that waits for a job goes on to wait, or is answered with the result of a job. -/
theorem job_of_answerAll {x : Engine} {replies : List Reply}
    (hjob : ∀ reply ∈ replies, ∀ limit, x.callers.get? reply.1 = some (.job limit) →
      ∃ result, reply.2 = .job result) {c : CallerId} {limit : Option (Nat × Error)}
    (hw : x.callers.get? c = some (.job limit)) :
    (∃ result, Entry.answered c (.job result) ∈ (x.answerAll replies).record) ∨
      (x.answerAll replies).callers.get? c = some (.job limit) := by
  apply answerAll_induct (I := fun y =>
    (∃ result, Entry.answered c (.job result) ∈ y.record) ∨ y.callers.get? c = some (.job limit))
  · exact .inr hw
  · rintro y reply hm (⟨result, ha⟩ | hy)
    · exact .inl ⟨result, record_answer_subset y _ _ ha⟩
    · rw [get?_callers_answer]
      by_cases hc : c = reply.1
      · subst hc
        obtain ⟨result, hresult⟩ := hjob reply hm limit hw
        rw [record_answer_of_waits hy, hresult]
        exact .inl ⟨result, List.mem_cons_self⟩
      · rw [if_neg hc]
        exact .inr hy

theorem stop (ho : e.Orderly) (hcorr : e.Correlates) (h : e.Pursues) :
    ((e.note .stopped).dispatch e.dispatcher.stop).Pursues := by
  let x := { e.note .stopped with dispatcher := e.dispatcher.stop.1 }
  have hx : x.record = .stopped :: e.record := record_note _ _
  have hjob : ∀ reply ∈ e.dispatcher.stop.2, ∀ limit,
      x.callers.get? reply.1 = some (.job limit) → ∃ result, reply.2 = .job result := by
    intro reply hm limit hw
    rcases List.mem_append.1 hm with hm | hm
    · obtain ⟨p, -, rfl⟩ := List.mem_map.1 hm
      exact ⟨_, rfl⟩
    · obtain ⟨command, hcommand, rfl⟩ := List.mem_map.1 hm
      cases command with
      | submit c request => exact ⟨_, rfl⟩
      | count c => exact absurd hw (not_job_of_count ho hcorr h hcommand limit)
  obtain ⟨answers, hr, ha⟩ := record_answerAll x e.dispatcher.stop.2
  have hold : e.record ⊆ (x.answerAll e.dispatcher.stop.2).record := fun entry hm => by
    rw [hr, hx]
    exact List.mem_append_right _ (List.mem_cons_of_mem _ hm)
  constructor
  · intro command hm
    rw [dispatcher_dispatch] at hm
    cases hm
  · intro hstop
    rw [dispatcher_dispatch] at hstop
    cases hstop
  · intro c request hm
    have hm : Entry.enqueued (.submit c request) ∈ (x.answerAll e.dispatcher.stop.2).record := hm
    rw [hr, hx] at hm
    rcases List.mem_append.1 hm with hm | hm
    · obtain ⟨reply, -, he, -⟩ := ha _ hm
      cases he
    obtain ⟨result, hanswered⟩ | ⟨limit, hw⟩ := h.pursued c request (by simpa using hm)
    · exact .inl ⟨result, hold hanswered⟩
    · exact (job_of_answerAll hjob hw).imp_right fun hw => ⟨limit, hw⟩

theorem move (ho : e.Orderly) (hcorr : e.Correlates) (h : e.Pursues) (hm : Move e e') :
    e'.Pursues := by
  cases hm with
  | rest => exact h
  | number => exact h.append (l := []) rfl rfl rfl (by simp)
  | refuse ha hd => exact h.append (l := [_]) rfl rfl (record_note _ _) (by simp)
  | enrol hw => exact h.enrol ho hw
  | submit hs hl =>
    refine h.send ho rfl (fun _ _ => ⟨_, rfl⟩) fun c request _ => ⟨_, rfl⟩
  | count hs => exact h.send ho rfl (fun _ hw => by cases hw) fun _ _ hc => by cases hc
  | serve hw hk ha =>
    refine h.answer fun limit hjob => ?_
    obtain rfl | ⟨q, rfl⟩ := hk <;> cases hw.symm.trans hjob
  | expire hw => exact h.answer fun _ _ => ⟨_, rfl⟩
  | operate hh hi => exact h.book _ _
  | @resume holder answer hh =>
    have hn : ({ e with holder := none }.note (.matchReturned holder.call answer)).Pursues :=
      h.append (l := [.matchReturned holder.call answer]) rfl rfl (record_note _ _) (by simp)
    exact hn.book _ _
  | arrive item =>
    obtain ⟨signals, hd⟩ := e.dispatcher.receive_eq item
    rw [hd]
    exact h.extend (l := [.arrived item]) (List.Subset.refl _) (record_note _ _) (by simp)
      (fun hs => ⟨hs, fun c limit hw => ⟨hw, fun ht => ht⟩⟩) fun c limit hw => .inr hw
  | endSignals =>
    exact h.extend (l := []) (List.Subset.refl _) rfl (by simp)
      (fun hs => ⟨hs, fun c limit hw => ⟨hw, fun ht => ht⟩⟩) fun c limit hw => .inr hw
  | takeCommand hr => exact h.takeCommand ho hcorr hr
  | callReturn hs hr => exact h.callReturn hs hr
  | takeSignal hi hr => exact h.takeSignal hi hr
  | stop hs => exact h.stop ho hcorr

end Pursues

theorem Attained.pursues (h : e.Attained) : e.Pursues := by
  induction h with
  | start capacity timer => exact .start capacity timer
  | alike _ ha ih => exact ih.alike ha
  | move h hm ih => exact ih.move h.orderly h.correlates hm

end Engine

end UnitControl
