import UnitControl.Proofs.Engine.History
import UnitControl.Proofs.Engine.Waits

/-!
# Jobs and their callers

The history of an engine is coherent: a caller gets the output of a job only from the first signal
that reports the job for which the call of that caller was made.
-/

namespace UnitControl.Engine

structure Correlates (e : Engine) : Prop where
  coherent : Coherent e.record
  queued : ∀ c request, .submit c request ∈ e.dispatcher.commands →
    Entry.enqueued (.submit c request) ∈ e.record ∧
      ∀ request', Entry.asked (.job c request') ∉ e.record
  out : ∀ c request, e.dispatcher.stage.call? = some (c, request) → Called c request e.record
  pending : ∀ path c, e.dispatcher.pending.get? path = some c →
    Since (Entry.Ends path) (.jobReturned c (.ok path)) e.record

variable {e e' : Engine}

namespace Correlates

theorem start (capacity : Nat) (timer : Timer) : (Engine.start capacity timer).Correlates where
  coherent := trivial
  queued c request h := by simp [Engine.start, Dispatcher.start] at h
  out c request h := by simp [Engine.start, Dispatcher.start, Stage.call?] at h
  pending path c h := by simp [Engine.start, Dispatcher.start] at h

/-- Only what the dispatcher has before it matters, and the entries that need a justification. -/
theorem extend (h : e.Correlates) {l : List Entry}
    (hc : e'.dispatcher.commands = e.dispatcher.commands)
    (ho : e'.dispatcher.stage.call? = e.dispatcher.stage.call?)
    (hp : e'.dispatcher.pending = e.dispatcher.pending) (hr : e'.record = l ++ e.record)
    (hl : ∀ entry ∈ l, entry.IsQuiet) : e'.Correlates := by
  constructor
  · rw [hr]
    exact h.coherent.append_quiet hl
  · intro c request hq
    obtain ⟨he, hn⟩ := h.queued c request (hc ▸ hq)
    rw [hr]
    refine ⟨List.mem_append_right _ he, fun request' hm => ?_⟩
    rcases List.mem_append.1 hm with hm | hm
    · exact hl _ hm
    · exact hn request' hm
  · intro c request ho'
    obtain ⟨hs, he⟩ := h.out c request (ho ▸ ho')
    rw [hr]
    exact ⟨hs.append fun x hx => (hl x hx).not_isJobCall, List.mem_append_right _ he⟩
  · intro path c hp'
    rw [hr]
    exact (h.pending path c (hp ▸ hp')).append fun x hx => (hl x hx).not_ends path

theorem alike (ha : Alike e e') (h : e.Correlates) : e'.Correlates :=
  h.extend (l := []) ha.commands ha.call ha.pending ha.record (by simp)

theorem cons (h : e.Correlates) {entry : Entry} (hj : entry.Justified e.record)
    (hcall : ¬entry.IsJobCall) (hend : ∀ path, ¬entry.Ends path)
    (hc : e'.dispatcher.commands = e.dispatcher.commands)
    (ho : e'.dispatcher.stage.call? = e.dispatcher.stage.call?)
    (hp : e'.dispatcher.pending = e.dispatcher.pending) (hr : e'.record = entry :: e.record) :
    e'.Correlates := by
  constructor
  · rw [hr]
    exact ⟨hj, h.coherent⟩
  · intro c request hq
    obtain ⟨he, hn⟩ := h.queued c request (hc ▸ hq)
    rw [hr]
    refine ⟨List.mem_cons_of_mem _ he, fun request' hm => ?_⟩
    rcases List.mem_cons.1 hm with rfl | hm
    · exact hcall trivial
    · exact hn request' hm
  · intro c request ho'
    obtain ⟨hs, he⟩ := h.out c request (ho ▸ ho')
    rw [hr]
    exact ⟨hs.cons hcall, List.mem_cons_of_mem _ he⟩
  · intro path c hp'
    rw [hr]
    exact (h.pending path c (hp ▸ hp')).cons (hend path)

theorem answer (h : e.Correlates) {id : CallerId} {a : Answer}
    (hu : ∀ a', Entry.answered id a' ∈ e.record → e.callers.get? id = none)
    (hd : a.Deserved id e.record) : (e.answer id a).Correlates := by
  cases hw : e.callers.get? id with
  | none =>
    exact h.extend (l := []) (by simp) (by simp) (by simp) (record_answer_of_none hw a) (by simp)
  | some w =>
    have hn : ∀ a', Entry.answered id a' ∉ e.record := by
      intro a' hm
      rw [hu a' hm] at hw
      cases hw
    have hj : (Entry.answered id a).Justified e.record := ⟨hn, hd⟩
    refine h.cons hj (fun hj => hj) (fun _ he => he) ?_ ?_ ?_ (record_answer_of_waits hw a)
    all_goals rw [dispatcher_answer]

theorem refuse (ho : e.Orderly) (h : e.Correlates) {a : Answer}
    (ha : ∀ output, a ≠ .job (.ok output)) :
    ({ e with fresh := e.fresh + 1 }.note (.answered e.fresh a)).Correlates := by
  have hd : a.Deserved e.fresh e.record := by
    cases a with
    | job result =>
      cases result with
      | ok output => exact absurd rfl (ha output)
      | error err =>
        exact .inr (.inr (.inr fun request => ho.not_enqueued_fresh rfl))
    | _ => trivial
  have hj : (Entry.answered e.fresh a).Justified e.record := ⟨ho.not_answered_fresh, hd⟩
  exact h.cons hj (fun hj => hj) (fun _ he => he) rfl rfl rfl (record_note _ _)

theorem send (ho : e.Orderly) (h : e.Correlates) {w : Wait} {c : Command}
    (hc : c.caller = e.fresh) :
    (({ e with fresh := e.fresh + 1 }.await e.fresh w).send c).Correlates := by
  have hr : (({ e with fresh := e.fresh + 1 }.await e.fresh w).send c).record =
      .enqueued c :: e.record := record_note _ _
  have hj : (Entry.enqueued c).Justified e.record := by
    refine ⟨fun c' hm he => ho.not_enqueued_fresh (he.trans hc) hm, fun a => ?_⟩
    rw [hc]
    exact ho.not_answered_fresh a
  constructor
  · rw [hr]
    exact ⟨hj, h.coherent⟩
  · intro c' request hq
    rw [hr]
    rcases List.mem_append.1 hq with hq | hq
    · obtain ⟨he, hn⟩ := h.queued c' request hq
      exact ⟨List.mem_cons_of_mem _ he, fun request' hm => hn request' (by simpa using hm)⟩
    · rw [← List.mem_singleton.1 hq] at hc ⊢
      refine ⟨List.mem_cons_self, fun request' hm => ?_⟩
      have hm : Entry.asked (.job c' request') ∈ e.record := by simpa using hm
      exact ho.not_enqueued_fresh (c := .submit c' request') hc (h.coherent.enqueued_of_asked hm)
  · intro c' request hout
    obtain ⟨hs, he⟩ := h.out c' request hout
    rw [hr]
    exact ⟨hs.cons (fun hx => hx), List.mem_cons_of_mem _ he⟩
  · intro path c' hp
    rw [hr]
    exact (h.pending path c' hp).cons fun hx => hx

theorem book (ho : e.Orderly) (h : e.Correlates) (task : Task)
    (p : Registry × Registry.Progress) : (e.book task p).Correlates := by
  obtain ⟨r, progress⟩ := p
  have hreg : { e with registry := r }.Correlates := h.extend (l := []) rfl rfl rfl rfl (by simp)
  cases progress with
  | ask call pause =>
    exact h.extend (l := [.asked (.matchRule call)]) rfl rfl rfl (record_note _ _)
      (by simp [Entry.IsQuiet])
  | done result =>
    rw [book_done]
    obtain ⟨-, hs⟩ | ⟨id, op, finish, -, -, ⟨next, cause, -, hs⟩ | ⟨outcome, hs⟩⟩ :=
      settle_cases { e with registry := r } task result
    · rw [hs]
      exact hreg
    · rw [hs]
      exact hreg.extend (l := []) rfl rfl rfl rfl (by simp)
    · rw [hs]
      exact hreg.answer (fun a hm => (ho.answered id a hm).2) trivial

theorem takeCommand (ho : e.Orderly) (h : e.Correlates) {r : Dispatcher × List Reply}
    (hr : e.dispatcher.takeCommand? = some r) : (e.dispatch r).noteCall.Correlates := by
  obtain ⟨hs, ⟨c, request, rest, hc, he⟩ | ⟨c, rest, hc, he⟩⟩ := takeCommand_turn hr
  · have hn := ho.slots_nodup
    rw [Dispatcher.slots, hc, List.append_assoc, List.map_cons, List.cons_append,
      List.nodup_cons] at hn
    obtain ⟨hin, hask⟩ := h.queued c request (hc ▸ List.mem_cons_self)
    rw [he]
    constructor
    · rw [record_note]
      exact ⟨⟨hin, hask⟩, h.coherent⟩
    · intro c' request' hq
      obtain ⟨he', hn'⟩ := h.queued c' request' (hc ▸ List.mem_cons_of_mem _ hq)
      rw [record_note]
      refine ⟨List.mem_cons_of_mem _ he', fun request'' hm => ?_⟩
      rcases List.mem_cons.1 hm with hm | hm
      · cases hm
        exact hn.1 (List.mem_append_left _ (List.mem_map.2 ⟨_, hq, rfl⟩))
      · exact hn' request'' hm
    · intro c' request' hout
      cases hout
      rw [record_note]
      exact ⟨since_head _ _ _, List.mem_cons_of_mem _ hin⟩
    · intro path c' hp
      rw [record_note]
      exact (h.pending path c' hp).cons fun hx => hx
  · rw [he]
    have hd : { e with dispatcher := { e.dispatcher with commands := rest } }.Correlates :=
      ⟨h.coherent, fun c' request hq => h.queued c' request (hc ▸ List.mem_cons_of_mem _ hq),
        h.out, h.pending⟩
    exact hd.answer (fun a hm => (ho.answered c a hm).2) trivial

theorem callReturn (ho : e.Orderly) (h : e.Correlates) {c : CallerId} {request : JobRequest}
    {result : Except Error String} {r : Dispatcher × List Reply}
    (hs : e.dispatcher.stage = .calling c request) (hr : e.dispatcher.called? result = some r) :
    ((e.note (.jobReturned c result)).dispatch r).Correlates := by
  have hcalled : Called c request e.record := h.out c request (by rw [hs]; rfl)
  have hrec : ∀ pending : Table String CallerId, ({ e with dispatcher := { e.dispatcher with
      stage := .idle, pending := pending } }.note (.jobReturned c result)).record =
        .jobReturned c result :: e.record := fun _ => record_note _ _
  have hput : ∀ path₀ path c', (e.dispatcher.pending.put path₀ c).get? path = some c' →
      e.dispatcher.pending.get? path = some c' ∨
        c' = c ∧ (.ok path₀ : Except Error String) = .ok path := by
    intro path₀ path c' hp
    rw [Table.get?_put] at hp
    split at hp
    · rename_i hpath
      cases hp
      exact .inr ⟨rfl, by rw [hpath]⟩
    · exact .inl hp
  have hret : ∀ pending : Table String CallerId,
      (∀ path c', pending.get? path = some c' → e.dispatcher.pending.get? path = some c' ∨
        c' = c ∧ result = .ok path) →
      ({ e with dispatcher := { e.dispatcher with stage := .idle, pending := pending } }.note
        (.jobReturned c result)).Correlates := by
    intro pending hp
    constructor
    · rw [hrec]
      exact ⟨⟨request, hcalled⟩, h.coherent⟩
    · intro c' request' hq
      obtain ⟨he, hn⟩ := h.queued c' request' hq
      rw [hrec]
      exact ⟨List.mem_cons_of_mem _ he, fun request'' hm => hn request'' (by simpa using hm)⟩
    · intro c' request' hout
      cases hout
    · intro path c' hp'
      rw [hrec]
      rcases hp path c' hp' with hp' | ⟨rfl, rfl⟩
      · exact (h.pending path c' hp').cons fun hx => hx
      · exact since_head _ _ _
  have hanswer : ∀ pending : Table String CallerId, ∀ id a,
      Entry.answered id a ∈ ({ e with dispatcher := { e.dispatcher with
        stage := .idle, pending := pending } }.note (.jobReturned c result)).record →
      e.callers.get? id = none := by
    intro pending id a hm
    rw [hrec] at hm
    exact (ho.answered id a (by simpa using hm)).2
  obtain ⟨err, rfl, he⟩ | ⟨path, rfl, ⟨hp, he⟩ | ⟨older, hp, he⟩⟩ := callReturn_turn hs hr
  · rw [he]
    refine (hret e.dispatcher.pending fun _ _ hp => .inl hp).answer (hanswer _ c) ?_
    rw [hrec]
    exact .inl ⟨_, rfl⟩
  · rw [he]
    exact hret _ (hput path)
  · rw [he]
    refine (hret _ (hput path)).answer (hanswer _ older) ?_
    rw [hrec]
    exact .inr (.inl ⟨rfl, .inl ⟨c, path, _, rfl, h.pending path older hp⟩⟩)

theorem takeSignal (ho : e.Orderly) (h : e.Correlates) {item : Except Error Signal}
    {rest : List (Except Error Signal)} {r : Dispatcher × List Reply}
    (hi : e.dispatcher.signals = item :: rest) (hr : e.dispatcher.takeSignal? = some r) :
    ((e.note (.tookSignal item)).dispatch r).Correlates := by
  have hrec : ∀ (pending : Table String CallerId) (stage : Stage), ({ e with dispatcher :=
      { e.dispatcher with signals := rest, pending := pending, stage := stage } }.note
        (.tookSignal item)).record = .tookSignal item :: e.record := fun _ _ => record_note _ _
  have htook : ∀ (pending : Table String CallerId) (stage : Stage), stage.call? = none →
      (∀ path c, pending.get? path = some c → e.dispatcher.pending.get? path = some c ∧
        ¬(Entry.tookSignal item).Ends path) →
      ({ e with dispatcher := { e.dispatcher with
        signals := rest, pending := pending, stage := stage } }.note
          (.tookSignal item)).Correlates := by
    intro pending stage hstage hp
    constructor
    · rw [hrec]
      exact ⟨trivial, h.coherent⟩
    · intro c request hq
      obtain ⟨he, hn⟩ := h.queued c request hq
      rw [hrec]
      exact ⟨List.mem_cons_of_mem _ he, fun request' hm => hn request' (by simpa using hm)⟩
    · intro c request hout
      have hout : stage.call? = some (c, request) := hout
      rw [hstage] at hout
      cases hout
    · intro path c hp'
      obtain ⟨hp', hn⟩ := hp path c hp'
      rw [hrec]
      exact (h.pending path c hp').cons hn
  obtain ⟨hs, ⟨path, output, c, hrep, hp, he⟩ | ⟨stage, hstage, hnone, he⟩⟩ := takeSignal_turn hi hr
  · rw [he]
    have hcall : e.dispatcher.stage.call? = none := by rw [hs]; rfl
    have herase : ∀ path' c', (e.dispatcher.pending.erase path).get? path' = some c' →
        e.dispatcher.pending.get? path' = some c' ∧ ¬(Entry.tookSignal item).Ends path' := by
      intro path' c' hp'
      rw [Table.get?_erase] at hp'
      split at hp'
      · cases hp'
      · rename_i hne
        refine ⟨hp', ?_⟩
        rintro ⟨output', hrep'⟩
        rw [hrep] at hrep'
        cases hrep'
        exact hne rfl
    refine (htook _ _ hcall herase).answer (fun a hm => ?_) ?_
    · rw [hrec] at hm
      exact (ho.answered c a (by simpa using hm)).2
    · rw [hrec]
      exact ⟨path, item, _, rfl, hrep, h.pending path c hp⟩
  · rw [he]
    have hcall : stage.call? = none := by
      obtain rfl | ⟨parcel, rfl⟩ := hstage <;> rfl
    refine htook e.dispatcher.pending stage hcall fun path c hp => ⟨hp, ?_⟩
    rintro ⟨output, hrep⟩
    rw [hnone path output hrep] at hp
    cases hp

theorem stop (ho : e.Orderly) (h : e.Correlates) :
    ((e.note .stopped).dispatch e.dispatcher.stop).Correlates := by
  have hstop : { e.note .stopped with dispatcher := e.dispatcher.stop.1 }.Correlates := by
    constructor
    · exact ⟨trivial, h.coherent⟩
    · intro c request hq
      cases hq
    · intro c request hout
      cases hout
    · intro path c hp
      cases hp
  have hdeserved : ∀ reply ∈ e.dispatcher.stop.2, ∀ l, Entry.stopped ∈ l →
      reply.2.Deserved reply.1 l := by
    intro reply hm l hl
    rcases List.mem_append.1 hm with hm | hm
    · obtain ⟨p, -, rfl⟩ := List.mem_map.1 hm
      exact .inr (.inl ⟨rfl, .inr hl⟩)
    · obtain ⟨c, -, rfl⟩ := List.mem_map.1 hm
      cases c with
      | submit c request => exact .inr (.inl ⟨rfl, .inr hl⟩)
      | count c => trivial
  let I := fun x : Engine => x.Correlates ∧ Entry.stopped ∈ x.record ∧
    ∀ id a, Entry.answered id a ∈ x.record → x.callers.get? id = none
  have hall : I ({ e.note .stopped with dispatcher := e.dispatcher.stop.1 }.answerAll
      e.dispatcher.stop.2) := by
    apply answerAll_induct (I := I)
    · refine ⟨hstop, List.mem_cons_self, fun id a hm => ?_⟩
      have hm : Entry.answered id a ∈ Entry.stopped :: e.record := hm
      exact (ho.answered id a (by simpa using hm)).2
    · rintro x reply hm ⟨hx, hst, hu⟩
      refine ⟨hx.answer (hu reply.1) (hdeserved reply hm _ hst),
        record_answer_subset x _ _ hst, fun id a hid => ?_⟩
      rw [get?_callers_answer]
      split
      · rfl
      · rename_i hne
        rw [record_answer] at hid
        split at hid
        · rcases List.mem_cons.1 hid with hid | hid
          · cases hid
            exact absurd rfl hne
          · exact hu id a hid
        · exact hu id a hid
  exact hall.1

theorem move (ho : e.Orderly) (h : e.Correlates) (hm : Move e e') : e'.Correlates := by
  have hu : ∀ id a, Entry.answered id a ∈ e.record → e.callers.get? id = none := fun id a hm =>
    (ho.answered id a hm).2
  cases hm with
  | rest => exact h
  | number => exact h.extend (l := []) rfl rfl rfl rfl (by simp)
  | refuse ha hd => exact refuse ho h ha
  | enrol hw => exact h.extend (l := []) rfl rfl rfl rfl (by simp)
  | submit hs hl => exact send ho h rfl
  | count hs => exact send ho h rfl
  | @serve id w a hw hk ha =>
    refine h.answer (hu id) ?_
    cases a with
    | job result => exact absurd rfl (ha result)
    | _ => trivial
  | @expire id time err hw =>
    obtain ⟨-, request, he, hl⟩ := ho.waits id _ hw
    obtain ⟨d, rfl⟩ := hl time err rfl
    exact h.answer (hu id) (.inr (.inr (.inl ⟨request, d, he, rfl⟩)))
  | operate hh hi => exact book ho h _ _
  | @resume holder answer hh =>
    have h' : ({ e with holder := none }.note (.matchReturned holder.call answer)).Correlates :=
      h.extend (l := [.matchReturned holder.call answer]) rfl rfl rfl (record_note _ _)
        (by simp [Entry.IsQuiet])
    exact book (ho.matchReturned _ answer) h' _ _
  | arrive item =>
    obtain ⟨signals, hd⟩ := e.dispatcher.receive_eq item
    rw [hd]
    exact h.extend (l := [.arrived item]) rfl rfl rfl (record_note _ _) (by simp [Entry.IsQuiet])
  | endSignals => exact h.extend (l := []) rfl rfl rfl rfl (by simp)
  | takeCommand hr => exact takeCommand ho h hr
  | callReturn hs hr => exact callReturn ho h hs hr
  | takeSignal hi hr => exact takeSignal ho h hi hr
  | stop hs => exact stop ho h

end Correlates

theorem Attained.correlates (h : e.Attained) : e.Correlates := by
  induction h with
  | start capacity timer => exact .start capacity timer
  | alike _ ha ih => exact ih.alike ha
  | move h hm ih => exact ih.move h.orderly hm

theorem step_takeSignal (h : e.step .takeSignal = some e') :
    ∃ item rest r, e.dispatcher.signals = item :: rest ∧ e.dispatcher.takeSignal? = some r ∧
      Alike ((e.note (.tookSignal item)).dispatch r) e' := by
  obtain ⟨e₁, hr, he⟩ := reaction_alike_of_step h
  cases hr with
  | @takeSignal item rest r hi hr => exact ⟨item, rest, r, hi, hr, alike_askTargets.trans he⟩

/-- A signal ends the wait of one caller at most, and touches no pending job but the one that it
reports. -/
theorem takeSignal_delivers (h : e.step .takeSignal = some e') :
    ∃ (item : Except Error Signal) (delivered : Option (CallerId × JobOutput)),
      e'.record = (delivered.toList.map fun d => Entry.answered d.1 (.job (.ok d.2))) ++
        .tookSignal item :: e.record ∧
      (∀ c output, delivered = some (c, output) → ∃ path,
        Signal.reported? item = some (path, output) ∧
          e.dispatcher.pending.get? path = some c) ∧
      e'.dispatcher.commands = e.dispatcher.commands ∧
      (∀ path, (∀ output, Signal.reported? item ≠ some (path, output)) →
        e'.dispatcher.pending.get? path = e.dispatcher.pending.get? path) ∧
      ∀ c, (∀ path output, Signal.reported? item = some (path, output) →
        e.dispatcher.pending.get? path ≠ some c) → e'.callers.get? c = e.callers.get? c := by
  obtain ⟨item, rest, r, hi, hr, ha⟩ := step_takeSignal h
  obtain ⟨-, ⟨path, output, c, hrep, hp, he⟩ | ⟨stage, -, hnone, he⟩⟩ := takeSignal_turn hi hr
  · rw [he] at ha
    let x := { e with dispatcher := { e.dispatcher with
      signals := rest, pending := e.dispatcher.pending.erase path } }.note (.tookSignal item)
    have hx : x.record = .tookSignal item :: e.record := record_note _ _
    have hpending : ∀ path', (∀ output, Signal.reported? item ≠ some (path', output)) →
        e'.dispatcher.pending.get? path' = e.dispatcher.pending.get? path' := by
      intro path' hne
      rw [ha.pending, dispatcher_answer]
      change (e.dispatcher.pending.erase path).get? path' = _
      rw [Table.get?_erase, if_neg]
      rintro rfl
      exact hne output hrep
    have hcallers : ∀ c', (∀ path output, Signal.reported? item = some (path, output) →
        e.dispatcher.pending.get? path ≠ some c') → e'.callers.get? c' = e.callers.get? c' := by
      intro c' hne
      rw [ha.callers, get?_callers_answer, if_neg]
      · rfl
      · rintro rfl
        exact hne path output hrep hp
    have hcommands : e'.dispatcher.commands = e.dispatcher.commands := by
      rw [ha.commands, dispatcher_answer]
      rfl
    cases hw : x.callers.get? c with
    | none =>
      refine ⟨item, none, ?_, by simp, hcommands, hpending, hcallers⟩
      rw [ha.record]
      exact Eq.trans (record_answer_of_none hw _) hx
    | some w =>
      refine ⟨item, some (c, output), ?_, ?_, hcommands, hpending, hcallers⟩
      · rw [ha.record]
        exact Eq.trans (record_answer_of_waits hw _) (congrArg (List.cons _) hx)
      · intro c' output' hd
        cases hd
        exact ⟨path, hrep, hp⟩
  · rw [he] at ha
    refine ⟨item, none, ?_, by simp, ha.commands, ?_, ?_⟩
    · rw [ha.record, record_note]
      rfl
    · intro path _
      rw [ha.pending]
      rfl
    · intro c _
      rw [ha.callers]
      rfl

/-- Every caller sends, and has carried out, one request at most, and gets one answer at most. An
output comes from the first signal taken that reports the job which the call for that request has
returned; an error is the one with which that call has returned, unless the dispatcher has let the
caller go, the time of the caller was up, or no request was sent. A signal gives an output to one
caller at most and leaves all others as they were. -/
theorem Reachable.jobs_correlate (h : e.Reachable) :
    (∀ c, e.record.countP (Entry.submits c) ≤ 1 ∧ e.record.countP (Entry.asks c) ≤ 1 ∧
      e.record.countP (Entry.returns c) ≤ 1 ∧ e.record.countP (Entry.answers c) ≤ 1) ∧
    (∀ c output, Entry.answered c (.job (.ok output)) ∈ e.record →
      ∃ request path id unit word later between earlier,
        e.record = later ++ .answered c (.job (.ok output)) ::
          .tookSignal (.ok (.jobRemoved id path unit word)) ::
            (between ++ .jobReturned c (.ok path) :: earlier) ∧
        output = .ofWord word ∧ (∀ entry ∈ between, ¬entry.Ends path) ∧
        Called c request earlier) ∧
    (∀ c err, Entry.answered c (.job (.error err)) ∈ e.record →
      (∃ request later earlier, e.record = later ++ .answered c (.job (.error err)) ::
          .jobReturned c (.error err) :: earlier ∧ Called c request earlier) ∨
      (err = .dropped ∧ ∃ later earlier,
        e.record = later ++ .answered c (.job (.error err)) :: earlier ∧ LetGo c earlier) ∨
      (∃ request d, Entry.enqueued (.submit c request) ∈ e.record ∧
        err = .jobTimeout request.unit d) ∨
      ∀ request, Entry.enqueued (.submit c request) ∉ e.record) ∧
    ∀ e', e.step .takeSignal = some e' →
      ∃ (item : Except Error Signal) (delivered : Option (CallerId × JobOutput)),
        e'.record = (delivered.toList.map fun d => Entry.answered d.1 (.job (.ok d.2))) ++
          .tookSignal item :: e.record ∧
        (∀ c output, delivered = some (c, output) → ∃ path,
          Signal.reported? item = some (path, output) ∧
            e.dispatcher.pending.get? path = some c) ∧
        e'.dispatcher.commands = e.dispatcher.commands ∧
        (∀ path, (∀ output, Signal.reported? item ≠ some (path, output)) →
          e'.dispatcher.pending.get? path = e.dispatcher.pending.get? path) ∧
        ∀ c, (∀ path output, Signal.reported? item = some (path, output) →
          e.dispatcher.pending.get? path ≠ some c) →
            e'.callers.get? c = e.callers.get? c := by
  have hc := h.attained.correlates.coherent
  refine ⟨fun c => ⟨hc.countP_submits c, hc.countP_asks c, hc.countP_returns c,
    hc.countP_answers c⟩, fun c output hm => hc.of_answered_ok hm,
    fun c err hm => hc.of_answered_error hm, fun e' hs => takeSignal_delivers hs⟩

/-- Two jobs end in the other order than that in which they began, and the signal for the first
comes twice. -/
def crossing : List Event :=
  [.call (.submit ⟨"StartUnit", ["a.service", "fail"]⟩ none), .takeCommand,
    .jobReturned (.ok "/job/1"),
    .call (.submit ⟨"StopUnit", ["b.service", "fail"]⟩ none), .takeCommand,
    .jobReturned (.ok "/job/2"),
    .signal (.ok (.jobRemoved 2 "/job/2" "b.service" "failed")), .takeSignal,
    .signal (.ok (.jobRemoved 1 "/job/1" "a.service" "done")), .takeSignal,
    .signal (.ok (.jobRemoved 1 "/job/1" "a.service" "canceled")), .takeSignal]

theorem Reachable.jobs_correlate_crossing :
    ∃ e, (Engine.start 1 .exact).run crossing = some e ∧
      Entry.answered 0 (.job (.ok .done)) ∈ e.record ∧
      e.record.countP (Entry.answers 0) ≤ 1 ∧
      ∃ request path id unit word later between earlier,
        e.record = later ++ .answered 0 (.job (.ok .done)) ::
          .tookSignal (.ok (.jobRemoved id path unit word)) ::
            (between ++ .jobReturned 0 (.ok path) :: earlier) ∧
        JobOutput.done = .ofWord word ∧ (∀ entry ∈ between, ¬entry.Ends path) ∧
        Called 0 request earlier := by
  have hr : (Engine.start 1 .exact).run crossing = some _ := rfl
  have h := Reachable.jobs_correlate ⟨1, .exact, crossing, hr⟩
  refine ⟨_, hr, ?_, (h.1 0).2.2.2, h.2.1 0 .done ?_⟩ <;>
    exact List.Mem.tail _ (List.Mem.tail _ (List.Mem.head _))

end UnitControl.Engine
