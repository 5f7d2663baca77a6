import UnitControl.Proofs.Engine.Outlets
import UnitControl.Proofs.Engine.Pending

/-!
# The order of job calls

A request that is not refused at once is sent to the dispatcher, which makes the calls in the order
in which the requests were sent, each once, and one at a time: it waits for the end of a call before
it turns to a signal or to another command.
-/

namespace UnitControl

def Command.submission? : Command → Option (CallerId × JobRequest)
  | submit c request => some (c, request)
  | count _ => none

/-- The request that a call sends to the dispatcher, if it is not refused at once. -/
def Call.request? (clock : Clock) : Call → Option JobRequest
  | submit request limit => if limit = some .zero then none else some request
  | submitLate request d ago looks =>
    if d = .zero then none else if looks && clock.isOver ago d then none else some request
  | job kind unit mode =>
    match Name.canonical unit with
    | .ok unit => some ⟨kind.method, [unit, mode.word]⟩
    | .error _ => none
  | _ => none

/-- The error with which a call for a job is refused at once. -/
def Call.fault? (clock : Clock) : Call → Option Error
  | submit _ limit =>
    if limit = some .zero then some (.invalidInput "timeout must be > 0") else none
  | submitLate request d ago looks =>
    if d = .zero then some (.invalidInput "timeout must be > 0")
    else if looks && clock.isOver ago d then some (.jobTimeout request.unit d)
    else none
  | job _ unit _ =>
    match Name.canonical unit with
    | .ok _ => none
    | .error fault => some (.invalidInput fault.message)
  | _ => none

namespace Entry

def submission? : Entry → Option (CallerId × JobRequest)
  | enqueued command => command.submission?
  | _ => none

def jobCall? : Entry → Option (CallerId × JobRequest)
  | asked (.job c request) => some (c, request)
  | _ => none

def returner? : Entry → Option CallerId
  | jobReturned c _ => some c
  | _ => none

/-- The dispatcher turns to a request or to a signal. -/
def IsUptake : Entry → Prop
  | asked (.job ..) | tookSignal _ => True
  | _ => False

/-- The entry tells of no submission, of no job call and of no signal that is taken. -/
def IsStill : Entry → Prop
  | enqueued (.submit ..) | asked (.job ..) | jobReturned .. | tookSignal _ => False
  | _ => True

end Entry

/-- What the entries of a history tell, in the order in which it happened. -/
def told {α : Type} (f : Entry → Option α) (record : List Entry) : List α :=
  (record.filterMap f).reverse

section Told

variable {α : Type} {f : Entry → Option α} {entry : Entry} {l : List Entry}

theorem told_append (f : Entry → Option α) (l l' : List Entry) :
    told f (l' ++ l) = told f l ++ told f l' := by
  simp [told]

theorem told_cons_none (h : f entry = none) (l : List Entry) : told f (entry :: l) = told f l := by
  rw [told, List.filterMap_cons_none h, told]

theorem told_cons_some (f : Entry → Option α) {a : α} (h : f entry = some a) (l : List Entry) :
    told f (entry :: l) = told f l ++ [a] := by
  rw [told, List.filterMap_cons_some h, List.reverse_cons, told]

theorem told_eq_nil (h : ∀ entry ∈ l, f entry = none) : told f l = [] := by
  rw [told, List.reverse_eq_nil_iff, List.filterMap_eq_nil_iff]
  exact h

theorem mem_told {a : α} : a ∈ told f l ↔ ∃ entry ∈ l, f entry = some a := by
  rw [told, List.mem_reverse, List.mem_filterMap]

end Told

/-- The requests that were sent to the dispatcher, with their callers. -/
def submissions (record : List Entry) : List (CallerId × JobRequest) :=
  told Entry.submission? record

/-- The job calls that were made, with the callers for whom they were made. -/
def jobCalls (record : List Entry) : List (CallerId × JobRequest) := told Entry.jobCall? record

def returners (record : List Entry) : List CallerId := told Entry.returner? record

theorem mem_submissions {c : CallerId} {request : JobRequest} {l : List Entry} :
    (c, request) ∈ submissions l ↔ .enqueued (.submit c request) ∈ l := by
  refine mem_told.trans ⟨?_, fun hm => ⟨_, hm, rfl⟩⟩
  rintro ⟨entry, hm, he⟩
  cases entry with
  | enqueued command =>
    cases command with
    | submit c' request' =>
      cases he
      exact hm
    | count c' => cases he
  | _ => cases he

namespace Entry.IsStill

variable {entry : Entry}

theorem submission (h : entry.IsStill) : entry.submission? = none := by
  cases entry with
  | enqueued command =>
    cases command with
    | submit c request => exact h.elim
    | count c => rfl
  | _ => rfl

theorem jobCall (h : entry.IsStill) : entry.jobCall? = none := by
  cases entry with
  | asked request =>
    cases request with
    | job c request => exact h.elim
    | _ => rfl
  | _ => rfl

theorem returner (h : entry.IsStill) : entry.returner? = none := by
  cases entry with
  | jobReturned c result => exact h.elim
  | _ => rfl

theorem not_uptake (h : entry.IsStill) : ¬entry.IsUptake := by
  intro ht
  cases entry with
  | asked request =>
    cases request with
    | job c request => exact h
    | _ => exact ht
  | tookSignal item => exact h
  | _ => exact ht

end Entry.IsStill

/-- Whenever the dispatcher turns to something, all calls that it has made before have returned. -/
def OneByOne : List Entry → Prop
  | [] => True
  | entry :: earlier =>
    (entry.IsUptake → returners earlier = (jobCalls earlier).map Prod.fst) ∧ OneByOne earlier

theorem OneByOne.turn {later earlier : List Entry} {entry : Entry}
    (h : OneByOne (later ++ entry :: earlier)) (ht : entry.IsUptake) :
    returners earlier = (jobCalls earlier).map Prod.fst := by
  induction later with
  | nil => exact h.1 ht
  | cons x later ih => exact ih h.2

/-- The calls are the first of the submissions, and `queued` are the others; `out` is the call that
has not returned. -/
structure InOrder (queued : List (CallerId × JobRequest)) (out : Option (CallerId × JobRequest))
    (record : List Entry) : Prop where
  queue : submissions record = jobCalls record ++ queued
  back : (jobCalls record).map Prod.fst = returners record ++ (out.map Prod.fst).toList
  turns : OneByOne record
  distinct : ((submissions record).map Prod.fst).Nodup

namespace InOrder

variable {queued : List (CallerId × JobRequest)} {out : Option (CallerId × JobRequest)}
  {c : CallerId} {request : JobRequest} {record : List Entry}

theorem nil : InOrder [] none [] := ⟨rfl, rfl, trivial, .nil⟩

theorem still (h : InOrder queued out record) {entry : Entry} (he : entry.IsStill) :
    InOrder queued out (entry :: record) where
  queue := by
    rw [submissions, jobCalls, told_cons_none he.submission, told_cons_none he.jobCall]
    exact h.queue
  back := by
    rw [jobCalls, returners, told_cons_none he.jobCall, told_cons_none he.returner]
    exact h.back
  turns := ⟨fun ht => absurd ht he.not_uptake, h.turns⟩
  distinct := by
    rw [submissions, told_cons_none he.submission]
    exact h.distinct

theorem append (h : InOrder queued out record) {l : List Entry} (hl : ∀ entry ∈ l, entry.IsStill) :
    InOrder queued out (l ++ record) := by
  induction l with
  | nil => exact h
  | cons entry l ih =>
    exact (ih fun x hx => hl x (List.mem_cons_of_mem _ hx)).still (hl _ List.mem_cons_self)

theorem submit (h : InOrder queued out record)
    (hc : ∀ request, Entry.enqueued (.submit c request) ∉ record) :
    InOrder (queued ++ [(c, request)]) out (.enqueued (.submit c request) :: record) := by
  have hs : submissions (.enqueued (.submit c request) :: record) =
      submissions record ++ [(c, request)] := told_cons_some Entry.submission? rfl _
  refine ⟨?_, h.back, ⟨fun ht => ht.elim, h.turns⟩, ?_⟩
  · rw [hs, h.queue, List.append_assoc]
    rfl
  · rw [hs, List.map_append, List.nodup_append]
    refine ⟨h.distinct, List.pairwise_singleton _ _, fun c₁ h₁ c₂ h₂ he => ?_⟩
    obtain ⟨⟨c', request'⟩, hm, rfl⟩ := List.mem_map.1 h₁
    obtain rfl := List.mem_singleton.1 h₂
    exact hc request' (mem_submissions.1 (he ▸ hm))

theorem call (h : InOrder ((c, request) :: queued) none record) :
    InOrder queued (some (c, request)) (.asked (.job c request) :: record) := by
  have hj : jobCalls (.asked (.job c request) :: record) = jobCalls record ++ [(c, request)] :=
    told_cons_some Entry.jobCall? rfl _
  have hback : (jobCalls record).map Prod.fst = returners record :=
    h.back.trans (List.append_nil _)
  refine ⟨?_, ?_, ⟨fun _ => hback.symm, h.turns⟩, h.distinct⟩
  · rw [hj, List.append_assoc]
    exact h.queue
  · rw [hj, List.map_append, hback]
    rfl

theorem finish (h : InOrder queued (some (c, request)) record) (result : Except Error String) :
    InOrder queued none (.jobReturned c result :: record) := by
  have hr : returners (.jobReturned c result :: record) = returners record ++ [c] :=
    told_cons_some Entry.returner? rfl _
  refine ⟨h.queue, ?_, ⟨fun ht => ht.elim, h.turns⟩, h.distinct⟩
  rw [hr]
  exact h.back.trans (List.append_nil _).symm

theorem signal (h : InOrder queued none record) (item : Except Error Signal) :
    InOrder queued none (.tookSignal item :: record) :=
  ⟨h.queue, h.back, ⟨fun _ => (h.back.trans (List.append_nil _)).symm, h.turns⟩, h.distinct⟩

end InOrder

namespace Engine

/-- The dispatcher makes the calls in order. What is queued when it stops is not called any more. -/
def CallsInOrder (e : Engine) : Prop :=
  ∃ queued, InOrder queued e.dispatcher.stage.call? e.record ∧
    (e.dispatcher.hasStopped = false →
      queued = e.dispatcher.commands.filterMap Command.submission?)

namespace CallsInOrder

variable {e e' : Engine} {gone : List CallerId}

theorem extend (h : e.CallsInOrder) {l : List Entry} (hr : e'.record = l ++ e.record)
    (hl : ∀ entry ∈ l, entry.IsStill)
    (ho : e'.dispatcher.stage.call? = e.dispatcher.stage.call?)
    (hq : e'.dispatcher.hasStopped = false → e.dispatcher.hasStopped = false ∧
      e'.dispatcher.commands.filterMap Command.submission? =
        e.dispatcher.commands.filterMap Command.submission?) : e'.CallsInOrder := by
  obtain ⟨queued, hin, hqueued⟩ := h
  refine ⟨queued, ?_, fun hs => (hqueued (hq hs).1).trans (hq hs).2.symm⟩
  rw [hr, ho]
  exact hin.append hl

theorem aside (h : e.CallsInOrder) {l : List Entry} (hr : e'.record = l ++ e.record)
    (hl : ∀ entry ∈ l, entry.IsStill) (hd : e'.dispatcher = e.dispatcher) : e'.CallsInOrder :=
  h.extend hr hl (by rw [hd]) fun hs => by
    rw [hd] at hs ⊢
    exact ⟨hs, rfl⟩

theorem alike (ha : Alike e e') (h : e.CallsInOrder) : e'.CallsInOrder :=
  h.extend (l := []) ha.record (by simp) ha.call fun hs => ⟨ha.stopped ▸ hs, by rw [ha.commands]⟩

theorem answer (h : e.CallsInOrder) (id : CallerId) (a : Answer) :
    (e.answer id a).CallsInOrder := by
  obtain ⟨l, hr, hl⟩ := record_answer_append e id a
  refine h.aside hr (fun entry hm => ?_) (dispatcher_answer e id a)
  rw [hl entry hm]
  trivial

theorem book (h : e.CallsInOrder) (task : Task) (p : Registry × Registry.Progress) :
    (e.book task p).CallsInOrder := by
  obtain ⟨l, hr, hl⟩ := record_book e task p
  refine h.aside hr (fun entry hm => ?_) (dispatcher_book e task p)
  obtain ⟨call, rfl⟩ | ⟨id, outcome, rfl⟩ := hl entry hm <;> trivial

/-- A dispatcher that runs has its turn, of which the replies come after the entry that tells of
it. -/
theorem turn {entry : Entry} {r : Dispatcher × List Reply} (hm : entry.isMilestone = true)
    (h : InOrder (r.1.commands.filterMap Command.submission?) r.1.stage.call?
      (entry :: e.record)) : ((e.note entry).dispatch r).CallsInOrder := by
  obtain ⟨answers, hr, hanswers⟩ := record_dispatch (e.note entry) r
  rw [record_note, if_pos hm] at hr
  refine ⟨_, ?_, fun _ => by rw [dispatcher_dispatch]⟩
  rw [hr, dispatcher_dispatch]
  refine h.append fun x hx => ?_
  obtain ⟨c, a, rfl⟩ := hanswers x hx
  trivial

theorem takeCommand (h : e.CallsInOrder) {r : Dispatcher × List Reply}
    (hr : e.dispatcher.takeCommand? = some r) : (e.dispatch r).noteCall.CallsInOrder := by
  obtain ⟨hs, ⟨c, request, rest, hc, he⟩ | ⟨c, rest, hc, he⟩⟩ := takeCommand_turn hr
  · obtain ⟨queued, hin, hqueued⟩ := h
    have hq := hqueued (by simp only [Dispatcher.hasStopped, hs])
    rw [hs, hq, hc] at hin
    rw [he]
    refine ⟨rest.filterMap Command.submission?, ?_, fun _ => rfl⟩
    rw [record_note]
    exact hin.call
  · have hx : { e with dispatcher := { e.dispatcher with commands := rest } }.CallsInOrder := by
      refine h.extend (l := []) rfl (by simp) rfl fun hs => ⟨hs, ?_⟩
      rw [hc]
      rfl
    rw [he]
    exact hx.answer c _

theorem callReturn (h : e.CallsInOrder) {c : CallerId} {request : JobRequest}
    {result : Except Error String} {r : Dispatcher × List Reply}
    (hs : e.dispatcher.stage = .calling c request) (hr : e.dispatcher.called? result = some r) :
    ((e.note (.jobReturned c result)).dispatch r).CallsInOrder := by
  obtain ⟨queued, hin, hqueued⟩ := h
  have hq := hqueued (by simp only [Dispatcher.hasStopped, hs])
  rw [hs, hq] at hin
  refine turn rfl ?_
  obtain ⟨err, -, rfl⟩ | ⟨path, -, rfl⟩ := Dispatcher.called_cases hs hr <;> exact hin.finish result

theorem takeSignal (h : e.CallsInOrder) {item : Except Error Signal}
    {rest : List (Except Error Signal)} {r : Dispatcher × List Reply}
    (hi : e.dispatcher.signals = item :: rest) (hr : e.dispatcher.takeSignal? = some r) :
    ((e.note (.tookSignal item)).dispatch r).CallsInOrder := by
  obtain ⟨hs, hcases⟩ := Dispatcher.takeSignal_cases hi hr
  obtain ⟨queued, hin, hqueued⟩ := h
  have hq := hqueued (by simp only [Dispatcher.hasStopped, hs])
  rw [hs, hq] at hin
  refine turn rfl ?_
  obtain ⟨path, output, c, -, -, rfl⟩ | ⟨stage, hstage, -, rfl⟩ := hcases
  · rw [hs]
    exact hin.signal item
  · obtain rfl | ⟨parcel, rfl⟩ := hstage <;> exact hin.signal item

theorem submit (ha : e.Attends gone) (h : e.CallsInOrder) (w : Wait) (request : JobRequest) :
    (({ e with fresh := e.fresh + 1 }.await e.fresh w).send
      (.submit e.fresh request)).CallsInOrder := by
  have hnew : ∀ request, Entry.enqueued (.submit e.fresh request) ∉ e.record :=
    fun request hm => absurd (ha.sent _ hm).1 (Nat.lt_irrefl _)
  obtain ⟨queued, hin, hqueued⟩ := h
  refine ⟨queued ++ [(e.fresh, request)], ?_, fun hs => ?_⟩
  · rw [send, record_note]
    exact hin.submit hnew
  · have hc : (e.dispatcher.commands ++ [Command.submit e.fresh request]).filterMap
        Command.submission? =
        e.dispatcher.commands.filterMap Command.submission? ++ [(e.fresh, request)] :=
      List.filterMap_append
    exact (congrArg (· ++ _) (hqueued hs)).trans hc.symm

theorem move (ha : e.Attends gone) (h : e.CallsInOrder) (hm : Move e e') : e'.CallsInOrder := by
  cases hm with
  | rest => exact h
  | number => exact h.aside (l := []) rfl (by simp) rfl
  | refuse _ _ => exact h.aside (l := [_]) (record_note _ _) (by simp [Entry.IsStill]) rfl
  | enrol hw => exact h.aside (l := []) rfl (by simp) rfl
  | submit hs hl => exact submit ha h _ _
  | count hs =>
    refine h.extend (l := [.enqueued (.count e.fresh)]) (record_note _ _) (by simp [Entry.IsStill])
      rfl fun hs => ⟨hs, ?_⟩
    exact (List.filterMap_append ..).trans (List.append_nil _)
  | serve hw hk _ => exact h.answer _ _
  | expire hw => exact h.answer _ _
  | operate hh hi => exact h.book _ _
  | @resume holder answer hh =>
    have hn : ({ e with holder := none }.note (.matchReturned holder.call answer)).CallsInOrder :=
      h.aside (l := [.matchReturned holder.call answer]) (record_note _ _)
        (by simp [Entry.IsStill]) rfl
    exact hn.book _ _
  | arrive item =>
    obtain ⟨signals, hd⟩ := e.dispatcher.receive_eq item
    rw [hd]
    exact h.extend (l := [.arrived item]) (record_note _ _) (by simp [Entry.IsStill]) rfl
      fun hs => ⟨hs, rfl⟩
  | endSignals => exact h.extend (l := []) rfl (by simp) rfl fun hs => ⟨hs, rfl⟩
  | takeCommand hr => exact h.takeCommand hr
  | callReturn hs hr => exact h.callReturn hs hr
  | takeSignal hi hr => exact h.takeSignal hi hr
  | stop hs =>
    obtain ⟨answers, hr, hanswers⟩ := record_dispatch (e.note .stopped) e.dispatcher.stop
    rw [record_note] at hr
    refine h.extend (l := answers ++ [.stopped]) (hr.trans (List.append_cons ..))
      (fun entry hm => ?_) ?_ fun hrun => ?_
    · rcases List.mem_append.1 hm with hm | hm
      · obtain ⟨c, a, rfl⟩ := hanswers entry hm
        trivial
      · rw [List.mem_singleton.1 hm]
        trivial
    · rw [dispatcher_dispatch, Dispatcher.stage_of_mayStop hs]
      rfl
    · rw [dispatcher_dispatch] at hrun
      cases hrun

end CallsInOrder

theorem Visited.callsInOrder {gone : List CallerId} {e : Engine} (h : Visited gone e) :
    e.CallsInOrder := by
  induction h with
  | start capacity timer => exact ⟨[], .nil, fun _ => rfl⟩
  | alike _ ha ih => exact ih.alike ha
  | move h hm ih => exact ih.move h.attends hm
  | vanish _ hw hf ih => exact ih.aside (l := []) rfl (by simp) rfl

variable {e e' : Engine} {gone : List CallerId}

theorem busy_of_act {a : Act} {c : CallerId} {request : JobRequest} (h : e.act a = some e')
    (hs : e.dispatcher.stage = .calling c request) :
    e'.dispatcher.stage = .calling c request ∨
      (e'.dispatcher.stage.call? = none ∧ ∃ result, a = .event (.jobReturned result)) := by
  have hcall (x : Engine) (hx : x.dispatcher.stage.call? = e.dispatcher.stage.call?) :
      x.dispatcher.stage = .calling c request := by
    rw [hs] at hx
    unfold Stage.call? at hx
    split at hx
    · cases hx
      assumption
    · cases hx
  have hidle {p : Prop} (hi : e.dispatcher.stage = .idle) : p := by
    rw [hi] at hs
    cases hs
  obtain ⟨event, rfl, hstep⟩ | ⟨c', w, -, -, -, ha⟩ := act_cases h
  · obtain ⟨x, hr, hd⟩ := desk_of_step hstep
    have hback : e'.dispatcher.stage.call? = x.dispatcher.stage.call? := congrArg Desk.call? hd
    have hstay (hx : x.dispatcher.stage.call? = e.dispatcher.stage.call?) :
        e'.dispatcher.stage = .calling c request := hcall e' (hback.trans hx)
    cases ha : event.isAside with
    | true => exact .inl (hstay (by rw [(passesBy_of_reaction hr ha).stage]))
    | false =>
      cases hr with
      | takeFeed h => exact .inl (hstay (alike_onFeed h).call)
      | hangUpFeed h => exact .inl (hstay (alike_onFeed h).call)
      | @jobReturned c' request' result r hs' hr =>
        refine .inr ⟨?_, result, rfl⟩
        rw [hback, dispatcher_dispatch]
        obtain ⟨err, -, rfl⟩ | ⟨path, -, rfl⟩ := Dispatcher.called_cases hs' hr <;> rfl
      | @grant task hh hq =>
        have ht : task = .dispatcher := by cases task <;> first | rfl | cases ha
        subst ht
        refine .inl (hstay ?_)
        simp only [enter, hs]
      | takeCommand hr => exact hidle (takeCommand_turn hr).1
      | takeSignal hi hr => exact hidle (Dispatcher.takeSignal_cases hi hr).1
      | deliver hsend => exact .inl (hstay (alike_deliver hsend).call)
      | look h => exact .inl (hstay (alike_look h).call)
      | unblock h => exact .inl (hstay (alike_unblock h).call)
      | stop hmay => exact hidle (Dispatcher.stage_of_mayStop hmay)
      | _ => cases ha
  · exact .inl (hcall e' ha.call)

theorem submissions_of_none {l : List Entry} (hr : e'.record = l ++ e.record)
    (hl : ∀ entry ∈ l, entry.submission? = none) :
    submissions e'.record = submissions e.record := by
  rw [hr, submissions, told_append, told_eq_nil hl, List.append_nil, submissions]

theorem submissions_refuse (e : Engine) (id : CallerId) (a : Answer) :
    submissions (e.note (.answered id a)).record = submissions e.record :=
  submissions_of_none (l := [.answered id a]) (record_note _ _) (by simp [Entry.submission?])

theorem submissions_submit (e : Engine) (id : CallerId) (request : JobRequest)
    (limit : Option (Nat × Error)) : submissions (e.submit id request limit).record =
      submissions e.record ++ if e.dispatcher.hasStopped then [] else [(id, request)] := by
  unfold submit
  split
  · exact (submissions_refuse e id _).trans (List.append_nil _).symm
  · rw [send, record_note]
    exact told_cons_some Entry.submission? rfl _

theorem submissions_submitWithin (e : Engine) (id : CallerId) (request : JobRequest)
    (d : Duration) (ago : Nat) (looks : Bool) :
    submissions (e.submitWithin id request d ago looks).record = submissions e.record ++
      if e.dispatcher.hasStopped then []
      else (((Call.submitLate request d ago looks).request? e.clock).map (Prod.mk id)).toList := by
  simp only [submitWithin, Call.request?]
  split
  · simp [submissions_refuse]
  · split
    · simp [submissions_refuse]
    · exact submissions_submit e id request _

theorem submissions_call (e : Engine) (id : CallerId) (call : Call) :
    submissions (e.call id call).record = submissions e.record ++
      if e.dispatcher.hasStopped then []
      else ((call.request? e.clock).map (Prod.mk id)).toList := by
  have hnone (hc : call.request? e.clock = none)
      (hs : submissions (e.call id call).record = submissions e.record) :
      submissions (e.call id call).record = submissions e.record ++
        if e.dispatcher.hasStopped then []
        else ((call.request? e.clock).map (Prod.mk id)).toList := by
    rw [hs, hc]
    simp
  cases call with
  | submit request limit =>
    cases limit with
    | none => exact submissions_submit e id request none
    | some d =>
      refine (submissions_submitWithin e id request d 0 false).trans ?_
      simp [Call.request?]
  | submitLate request d ago looks => exact submissions_submitWithin e id request d ago looks
  | job kind unit mode =>
    cases hu : Name.canonical unit with
    | ok name =>
      simp only [Engine.call, Call.request?, hu]
      exact submissions_submit e id _ none
    | error fault =>
      refine hnone (by simp only [Call.request?, hu]) ?_
      simp only [Engine.call, hu]
      exact submissions_refuse e id _
  | pendingJobs =>
    refine hnone rfl ?_
    simp only [Engine.call]
    split
    · exact submissions_refuse e id _
    · exact submissions_of_none (l := [.enqueued (.count id)]) (record_note _ _)
        (by simp [Entry.submission?, Command.submission?])
  | listUnits => exact hnone rfl rfl
  | add s unit =>
    refine hnone rfl ?_
    simp only [Engine.call, operateOn]
    split
    · rfl
    · exact submissions_refuse e id _
  | remove s unit =>
    refine hnone rfl ?_
    simp only [Engine.call, operateOn]
    split
    · rfl
    · exact submissions_refuse e id _
  | contains s unit =>
    refine hnone rfl ?_
    simp only [Engine.call]
    split
    · rfl
    · exact submissions_refuse e id _
  | members s => exact hnone rfl rfl
  | attach s values faults refusal => exact hnone rfl rfl
  | close s => exact hnone rfl rfl
  | subscribe unit values refusal =>
    refine hnone rfl ?_
    simp only [Engine.call]
    split
    · rfl
    · rw [submissions_refuse, (alike_abandon _).record]
      rfl
  | references unit =>
    refine hnone rfl ?_
    simp only [Engine.call]
    split
    · rfl
    · exact submissions_refuse e id _

/-- The request that an act sends to the dispatcher, with the number of its caller. -/
def submitted (e : Engine) : Act → List (CallerId × JobRequest)
  | .event (.call call) =>
    if e.dispatcher.hasStopped then [] else ((call.request? e.clock).map (Prod.mk e.fresh)).toList
  | _ => []

/-- The requests that the acts of a run send to the dispatcher, in their order. -/
def requested : Engine → List Act → List (CallerId × JobRequest)
  | _, [] => []
  | e, a :: rest => e.submitted a ++ (e.act a).elim [] (requested · rest)

theorem submissions_of_act {a : Act} (h : e.act a = some e') (ha : e'.Attends gone) :
    submissions e'.record = submissions e.record ++ e.submitted a := by
  obtain ⟨event, rfl, hstep⟩ | ⟨c, w, rfl, -, -, halike⟩ := act_cases h
  · obtain ⟨x, hr, hx⟩ := reaction_of_step hstep
    have hrecord : e'.record = x.record := by obtain rfl | rfl := hx <;> rfl
    have hfresh : e'.fresh = if event.numbers then e.fresh + 1 else e.fresh := by
      obtain rfl | rfl := hx <;> exact (shift_of_reaction hr).fresh
    have hsame (hs : submissions x.record = submissions e.record)
        (hn : e.submitted (.event event) = []) :
        submissions e'.record = submissions e.record ++ e.submitted (.event event) := by
      rw [hrecord, hs, hn, List.append_nil]
    cases hn : event.numbers with
    | true =>
      cases hr with
      | call h =>
        rw [hrecord]
        exact submissions_call _ _ _
      | poll h => exact hsame rfl rfl
      | openSet h => exact hsame rfl rfl
      | _ => cases hn
    | false =>
      obtain ⟨l, hadds⟩ := adds_of_act h
      refine hsame ?_ (by cases event <;> first | rfl | cases hn)
      rw [← hrecord]
      refine submissions_of_none hadds.record fun entry hm => ?_
      cases entry with
      | enqueued command =>
        have hlt := (ha.sent command (hadds.record ▸ List.mem_append_left _ hm)).1
        rw [hadds.newcomer command hm, hfresh, if_neg (by simp [hn])] at hlt
        exact absurd hlt (Nat.lt_irrefl _)
      | _ => rfl
  · rw [halike.record]
    exact (List.append_nil _).symm

theorem requested_concat {l : List Act} {a : Act} (h : e.acts l = some e') :
    e.requested (l ++ [a]) = e.requested l ++ e'.submitted a := by
  induction l generalizing e with
  | nil =>
    cases h
    cases ha : e'.act a <;> simp [requested, ha]
  | cons b rest ih =>
    obtain ⟨x, hx, hrest⟩ := Option.bind_eq_some_iff.1 h
    simp only [List.cons_append, requested, hx, Option.elim_some, ih hrest, List.append_assoc]

theorem submissions_of_acts {capacity : Nat} {timer : Timer} {l : List Act}
    (h : (start capacity timer).acts l = some e) :
    submissions e.record = (start capacity timer).requested l := by
  induction l using List.reverseRecOn generalizing e with
  | nil =>
    cases h
    rfl
  | append_singleton l a ih =>
    obtain ⟨x, hx, ha⟩ := acts_concat.1 h
    rw [requested_concat hx, ← ih hx]
    exact submissions_of_act ha (visited_of_acts h).attends

theorem act_of_fault {call : Call} {err : Error} (hf : call.fault? e.clock = some err)
    (hh : e.handle = true) : ∃ e', e.act (.event (.call call)) = some e' ∧
      e'.dispatcher = e.dispatcher ∧
      e'.journal = .answered e.fresh (.job (.error err)) :: e.journal := by
  have hcall : e.permits call = true ∧ { e with fresh := e.fresh + 1 }.call e.fresh call =
      { e with fresh := e.fresh + 1 }.note (.answered e.fresh (.job (.error err))) := by
    cases call with
    | submit request limit =>
      simp only [Call.fault?] at hf
      split at hf
      · rename_i hl
        cases hf
        cases hl
        refine ⟨hh, ?_⟩
        simp only [Engine.call, submitWithin, if_true]
      · cases hf
    | submitLate request d ago looks =>
      simp only [Call.fault?] at hf
      split at hf
      · cases hf
        refine ⟨hh, ?_⟩
        simp only [Engine.call, submitWithin, ‹d = _›, if_true]
      · split at hf
        · cases hf
          refine ⟨hh, ?_⟩
          simp only [Engine.call, submitWithin, ‹¬d = _›, if_false, ‹(looks && _) = true›, if_true]
        · cases hf
    | job kind unit mode =>
      simp only [Call.fault?] at hf
      split at hf
      · cases hf
      · cases hf
        refine ⟨hh, ?_⟩
        simp only [Engine.call, ‹Name.canonical unit = _›]
        rfl
    | _ => cases hf
  simp only [act, step, react, hcall.1, hcall.2, if_true, Option.map_some, Option.some.injEq,
    exists_eq_left']
  have hs : e.startles ({ e with fresh := e.fresh + 1 }.note
      (.answered e.fresh (.job (.error err)))) = false := by
    simp [startles, reachable, note, hh]
  rw [hs]
  exact ⟨rfl, rfl⟩

/-- In every run, whoever goes away meanwhile: the submissions are the requests of the calls that
were not refused, in their order and each with a caller of its own. The job calls are the first of
them, without a gap, and while the dispatcher runs the others are queued. At most one call is out;
whenever a call is made or a signal is taken, all earlier calls have returned, and while a call is
out the dispatcher waits for its end. A call that is refused reaches neither the queue nor the
bus. -/
theorem acts_call_in_order {capacity : Nat} {timer : Timer} {l : List Act}
    (h : (start capacity timer).acts l = some e) :
    submissions e.record = (start capacity timer).requested l ∧
    ((submissions e.record).map Prod.fst).Nodup ∧
    jobCalls e.record <+: submissions e.record ∧
    (e.dispatcher.hasStopped = false → submissions e.record =
      jobCalls e.record ++ e.dispatcher.commands.filterMap Command.submission?) ∧
    (e.dispatcher.stage = .idle → e.dispatcher.commands = [] →
      jobCalls e.record = submissions e.record ∧
        returners e.record = (submissions e.record).map Prod.fst) ∧
    (jobCalls e.record).map Prod.fst =
      returners e.record ++ (e.dispatcher.stage.call?.map Prod.fst).toList ∧
    (∀ later entry earlier, e.record = later ++ entry :: earlier → entry.IsUptake →
      returners earlier = (jobCalls earlier).map Prod.fst) ∧
    (∀ a e' c request, e.act a = some e' → e.dispatcher.stage = .calling c request →
      e'.dispatcher.stage = .calling c request ∨
        (e'.dispatcher.stage.call? = none ∧ ∃ result, a = .event (.jobReturned result))) ∧
    ∀ call err, call.fault? e.clock = some err → e.handle = true →
      e.submitted (.event (.call call)) = [] ∧
        ∃ e', e.act (.event (.call call)) = some e' ∧ e'.dispatcher = e.dispatcher ∧
          e'.journal = .answered e.fresh (.job (.error err)) :: e.journal := by
  obtain ⟨queued, hin, hqueued⟩ := (visited_of_acts h).callsInOrder
  refine ⟨submissions_of_acts h, hin.distinct, ⟨queued, hin.queue.symm⟩,
    fun hs => hqueued hs ▸ hin.queue, fun hs hc => ?_, hin.back,
    fun later entry earlier he ht => ?_, fun a e' c request => busy_of_act,
    fun call err hf hh => ⟨?_, act_of_fault hf hh⟩⟩
  · have hnil : queued = [] := by
      rw [hqueued (by simp only [Dispatcher.hasStopped, hs]), hc]
      rfl
    have hall : submissions e.record = jobCalls e.record := by
      rw [hin.queue, hnil, List.append_nil]
    refine ⟨hall.symm, ?_⟩
    rw [hall, hin.back, hs]
    exact (List.append_nil _).symm
  · have hturns := hin.turns
    rw [he] at hturns
    exact hturns.turn ht
  · have hnone : call.request? e.clock = none := by
      cases call with
      | submit request limit =>
        simp only [Call.fault?] at hf
        split at hf
        · exact if_pos ‹_›
        · cases hf
      | submitLate request d ago looks =>
        simp only [Call.fault?] at hf
        split at hf
        · exact if_pos ‹_›
        · split at hf
          · exact (if_neg ‹_›).trans (if_pos ‹_›)
          · cases hf
      | job kind unit mode =>
        simp only [Call.fault?] at hf
        split at hf
        · cases hf
        · simp only [Call.request?, ‹Name.canonical unit = _›]
      | _ => cases hf
    simp [submitted, hnone]

/-- Three requests are queued, of which one comes from a helper; the caller of the second gives up
before its turn, and the call of the first fails. Two others are refused. -/
def queueing : List Act :=
  [.event (.call (.submit ⟨"StartUnit", ["a.service", "replace"]⟩ none)),
    .event (.call (.submit ⟨"StopUnit", ["b.service", "fail"]⟩ (some ⟨5⟩))),
    .event (.call (.submit ⟨"StopUnit", ["b.service", "fail"]⟩ (some .zero))),
    .event (.call (.job .restart "c" .replace)), .event (.call (.job .start "/" .replace)),
    .event (.tick 5 5), .event (.expire 1), .event .takeCommand,
    .event (.signal (.ok (.jobRemoved 1 "/job/1" "c.service" "done"))),
    .event (.jobReturned (.error (.unitNotFound "a.service"))), .event .takeCommand,
    .event (.jobReturned (.ok "/job/2")), .event .takeCommand, .event (.jobReturned (.ok "/job/1")),
    .event .takeSignal]

/-- All three calls were made, one after the other. -/
theorem acts_call_in_order_queueing :
    ∃ e, (start 0 .exact).acts queueing = some e ∧ e.dispatcher.hasStopped = false ∧
      jobCalls e.record = (start 0 .exact).requested queueing ∧
      (start 0 .exact).requested queueing = [(0, ⟨"StartUnit", ["a.service", "replace"]⟩),
        (1, ⟨"StopUnit", ["b.service", "fail"]⟩), (3, ⟨"RestartUnit", ["c.service", "replace"]⟩)] ∧
      returners e.record = [0, 1, 3] := by
  obtain ⟨e, hr⟩ : ∃ e, (start 0 .exact).acts queueing = some e := ⟨_, rfl⟩
  have h := acts_call_in_order hr
  have hstate : e.dispatcher.stage = .idle ∧ e.dispatcher.commands = [] := by
    cases hr
    exact ⟨rfl, rfl⟩
  obtain ⟨hcalls, hreturn⟩ := h.2.2.2.2.1 hstate.1 hstate.2
  have hreq : (start 0 .exact).requested queueing = [(0, ⟨"StartUnit", ["a.service", "replace"]⟩),
      (1, ⟨"StopUnit", ["b.service", "fail"]⟩),
      (3, ⟨"RestartUnit", ["c.service", "replace"]⟩)] := rfl
  refine ⟨e, hr, ?_, hcalls.trans h.1, hreq, ?_⟩
  · simp only [Dispatcher.hasStopped, hstate.1]
  · rw [hreturn, h.1, hreq]
    rfl

end Engine

end UnitControl
