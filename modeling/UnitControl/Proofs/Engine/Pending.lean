import UnitControl.Proofs.Engine.Attendance
import UnitControl.Proofs.Engine.Sidelines

/-!
# The table of pending jobs

The table holds the paths that calls have returned and of which no end has been taken since.
Commands are carried out in the order in which they were sent, so that whoever asks for the number
of pending jobs gets it for the moment at which all earlier commands are carried out.
-/

namespace UnitControl

/-- A call returns the path, or a signal that reports the end of its job is taken. -/
def Entry.Touches (path : String) (entry : Entry) : Prop :=
  (∃ c, entry = .jobReturned c (.ok path)) ∨ entry.Ends path

/-- The path was last returned to this caller, and no end of its job was taken since. -/
def Outstanding (path : String) (c : CallerId) (history : List Entry) : Prop :=
  Since (Entry.Touches path) (.jobReturned c (.ok path)) history

theorem since_cons {p : Entry → Prop} {entry x : Entry} {l : List Entry} :
    Since p entry (x :: l) ↔ x = entry ∨ (¬p x ∧ Since p entry l) := by
  constructor
  · rintro ⟨later, earlier, he, hl⟩
    cases later with
    | nil => exact .inl (List.cons.inj he).1
    | cons y later =>
      cases he
      exact .inr ⟨hl _ List.mem_cons_self, later, earlier, rfl,
        fun y hy => hl y (List.mem_cons_of_mem _ hy)⟩
  · rintro (rfl | ⟨hx, h⟩)
    · exact since_head p x l
    · exact h.cons hx

section Outstanding

variable {path : String} {c : CallerId} {l : List Entry}

theorem outstanding_returned {c' : CallerId} :
    Outstanding path c (.jobReturned c' (.ok path) :: l) ↔ c' = c := by
  refine since_cons.trans ⟨?_, fun hc => .inl (hc ▸ rfl)⟩
  rintro (he | ⟨hn, -⟩)
  · cases he
    rfl
  · exact absurd (.inl ⟨c', rfl⟩) hn

theorem not_outstanding_of_ends {entry : Entry} (h : entry.Ends path) :
    ¬Outstanding path c (entry :: l) := by
  refine fun ho => (since_cons.1 ho).elim (fun he => ?_) fun hn => hn.1 (.inr h)
  subst he
  exact h

theorem outstanding_cons {entry : Entry} (h : ¬entry.Touches path) :
    Outstanding path c (entry :: l) ↔ Outstanding path c l := by
  refine since_cons.trans ⟨fun ho => ?_, fun ho => .inr ⟨h, ho⟩⟩
  obtain rfl | ⟨-, ho⟩ := ho
  · exact absurd (.inl ⟨c, rfl⟩) h
  · exact ho

theorem outstanding_append {l' : List Entry} (h : ∀ entry ∈ l', ¬entry.Touches path) :
    Outstanding path c (l' ++ l) ↔ Outstanding path c l := by
  induction l' with
  | nil => rfl
  | cons entry l' ih =>
    exact (outstanding_cons (h entry List.mem_cons_self)).trans
      (ih fun x hx => h x (List.mem_cons_of_mem _ hx))

end Outstanding

def Entry.command? : Entry → Option Command
  | enqueued command => some command
  | _ => none

/-- The commands in the order in which they were sent. -/
def sent (record : List Entry) : List Command := (record.filterMap Entry.command?).reverse

theorem sent_append (l l' : List Entry) : sent (l' ++ l) = sent l ++ sent l' := by
  simp [sent]

theorem sent_cons_of_none {entry : Entry} (h : entry.command? = none) (l : List Entry) :
    sent (entry :: l) = sent l := by
  rw [sent, List.filterMap_cons_none h, sent]

theorem mem_sent {command : Command} {l : List Entry} :
    command ∈ sent l ↔ .enqueued command ∈ l := by
  rw [sent, List.mem_reverse, List.mem_filterMap]
  constructor
  · rintro ⟨entry, hm, he⟩
    cases entry with
    | enqueued c =>
      cases he
      exact hm
    | _ => cases he
  · exact fun hm => ⟨_, hm, rfl⟩

/-- The call of a submission has returned; somebody who has asked for a number has it, unless nobody
is there to get it. -/
def Command.CarriedOut (gone : List CallerId) (record : List Entry) : Command → Prop
  | submit c _ => ∃ result, Entry.jobReturned c result ∈ record
  | count c => c ∈ gone ∨ ∃ a, Entry.answered c a ∈ record

theorem Command.CarriedOut.mono {gone gone' : List CallerId} {l l' : List Entry}
    {command : Command} (h : command.CarriedOut gone l) (hg : gone ⊆ gone') (hl : l ⊆ l') :
    command.CarriedOut gone' l' := by
  cases command with
  | submit c request => exact h.imp fun result hm => hl hm
  | count c => exact h.imp (@hg c) (Exists.imp fun a hm => hl hm)

def Stage.out (s : Stage) : List Command := s.call?.toList.map fun p => .submit p.1 p.2

/-- The entry tells of no command, and of nothing that the table depends on. -/
def Entry.IsIdle : Entry → Prop
  | enqueued _ | jobReturned .. | tookSignal _ => False
  | _ => True

theorem Entry.IsIdle.not_touches {entry : Entry} (h : entry.IsIdle) (path : String) :
    ¬entry.Touches path := by
  rintro (⟨c, rfl⟩ | he)
  · exact h
  · cases entry with
    | tookSignal item => exact h
    | _ => exact he

theorem sent_of_isIdle {l : List Entry} (h : ∀ entry ∈ l, entry.IsIdle) : sent l = [] := by
  rw [sent, List.reverse_eq_nil_iff, List.filterMap_eq_nil_iff]
  intro entry hm
  have hi := h entry hm
  cases entry with
  | enqueued c => exact hi.elim
  | _ => rfl

namespace Dispatcher

variable {d : Dispatcher} {r : Dispatcher × List Reply} {reply : Reply}

theorem reply_ne_of_called {caller : CallerId} {request : JobRequest} {result : Except Error String}
    (hs : d.stage = .calling caller request) (h : d.called? result = some r) (hm : reply ∈ r.2)
    (n : Nat) : reply.2 ≠ .pending (.ok n) := by
  obtain ⟨err, -, rfl⟩ | ⟨path, -, rfl⟩ := called_cases hs h
  · rw [List.mem_singleton.1 hm]
    simp
  · obtain ⟨older, -, rfl⟩ := List.mem_map.1 hm
    simp

theorem reply_ne_of_takeSignal {item : Except Error Signal} {rest : List (Except Error Signal)}
    (hi : d.signals = item :: rest) (h : d.takeSignal? = some r) (hm : reply ∈ r.2) (n : Nat) :
    reply.2 ≠ .pending (.ok n) := by
  obtain ⟨-, ⟨path, output, c, -, -, rfl⟩ | ⟨stage, -, -, rfl⟩⟩ := takeSignal_cases hi h
  · rw [List.mem_singleton.1 hm]
    simp
  · cases hm

theorem reply_ne_of_stop {b : Bool} (h : d.mayStop b = true) (hm : reply ∈ d.stop.2) (n : Nat) :
    reply.2 ≠ .pending (.ok n) := by
  obtain ⟨command, -, rfl⟩ := (mem_stop_iff (stage_of_mayStop h)).1 hm
  cases command <;> simp [Command.refusal]

end Dispatcher

namespace Engine

structure Tallies (gone : List CallerId) (e : Engine) : Prop where
  pending : ∀ path c, e.dispatcher.pending.get? path = some c ↔ Outstanding path c e.record
  queue : ∃ done, sent e.record = done ++ (e.dispatcher.stage.out ++ e.dispatcher.commands) ∧
    ∀ command ∈ done, command.CarriedOut gone e.record

namespace Tallies

variable {e e' : Engine} {gone gone' : List CallerId}

theorem start (capacity : Nat) (timer : Timer) : (Engine.start capacity timer).Tallies [] where
  pending path c := by
    refine ⟨fun h => (by cases h), fun h => ?_⟩
    have hm : Entry.jobReturned c (.ok path) ∈ (Engine.start capacity timer).record := h.mem
    cases hm
  queue := ⟨[], rfl, by simp⟩

/-- Nothing happens to the table and to the queue. -/
theorem extend (h : e.Tallies gone) {l : List Entry} (hg : gone ⊆ gone')
    (hr : e'.record = l ++ e.record) (hl : ∀ entry ∈ l, entry.IsIdle)
    (hp : e'.dispatcher.pending = e.dispatcher.pending)
    (ho : e'.dispatcher.stage.out = e.dispatcher.stage.out)
    (hc : e'.dispatcher.commands = e.dispatcher.commands) : e'.Tallies gone' where
  pending path c := by
    rw [hp, hr, outstanding_append fun entry hm => (hl entry hm).not_touches path]
    exact h.pending path c
  queue := by
    obtain ⟨done, hs, hd⟩ := h.queue
    refine ⟨done, ?_, fun command hm => (hd command hm).mono hg ?_⟩
    · rw [hr, sent_append, sent_of_isIdle hl, List.append_nil, hs, ho, hc]
    · exact hr ▸ List.subset_append_right _ _

theorem alike (ha : Alike e e') (h : e.Tallies gone) : e'.Tallies gone :=
  h.extend (l := []) (List.Subset.refl _) ha.record (by simp) ha.pending
    (by rw [Stage.out, Stage.out, ha.call]) ha.commands

theorem answer (h : e.Tallies gone) (id : CallerId) (a : Answer) :
    (e.answer id a).Tallies gone := by
  obtain ⟨l, hr, hl⟩ := record_answer_append e id a
  refine h.extend (List.Subset.refl _) hr (fun entry hm => ?_) ?_ ?_ ?_
  · rw [hl entry hm]
    trivial
  all_goals rw [dispatcher_answer]

theorem send (h : e.Tallies gone) (w : Wait) (command : Command) :
    (({ e with fresh := e.fresh + 1 }.await e.fresh w).send command).Tallies gone := by
  have hr : (({ e with fresh := e.fresh + 1 }.await e.fresh w).send command).record =
      .enqueued command :: e.record := record_note _ _
  obtain ⟨done, hs, hd⟩ := h.queue
  refine ⟨fun path c => ?_, done, ?_, fun command' hm => (hd command' hm).mono
    (List.Subset.refl _) (hr ▸ List.subset_cons_self _ _)⟩
  · rw [hr, outstanding_cons]
    · exact h.pending path c
    · rintro (⟨c, he⟩ | he)
      · cases he
      · exact he
  · rw [hr, ← List.singleton_append, sent_append, hs]
    simp only [List.append_assoc]
    rfl

theorem book (h : e.Tallies gone) (task : Task) (p : Registry × Registry.Progress) :
    (e.book task p).Tallies gone := by
  obtain ⟨l, hr, hl⟩ := record_book e task p
  refine h.extend (List.Subset.refl _) hr (fun entry hm => ?_) ?_ ?_ ?_
  · obtain ⟨call, rfl⟩ | ⟨id, outcome, rfl⟩ := hl entry hm <;> trivial
  all_goals rw [dispatcher_book]

theorem takeCommand (ha : e.Attends gone) (h : e.Tallies gone) {r : Dispatcher × List Reply}
    (hr : e.dispatcher.takeCommand? = some r) : (e.dispatch r).noteCall.Tallies gone := by
  obtain ⟨done, hsent, hdone⟩ := h.queue
  obtain ⟨hs, ⟨c, request, rest, hc, he⟩ | ⟨c, rest, hc, he⟩⟩ := takeCommand_turn hr
  · have hrec : (e.dispatch r).noteCall.record = [.asked (.job c request)] ++ e.record := by
      rw [he]
      exact record_note _ _
    have hidle : ∀ entry ∈ [Entry.asked (.job c request)], entry.IsIdle := by simp [Entry.IsIdle]
    refine ⟨fun path c' => ?_, done, ?_, fun command hm => (hdone command hm).mono
      (List.Subset.refl _) (hrec ▸ List.subset_append_right _ _)⟩
    · rw [hrec, outstanding_append fun entry hm => (hidle entry hm).not_touches path, he]
      exact h.pending path c'
    · rw [hrec, sent_append, sent_of_isIdle hidle, List.append_nil, hsent, he, hs, hc]
      rfl
  · rw [he]
    let x := { e with dispatcher := { e.dispatcher with commands := rest } }
    have hx : x.callers = e.callers := rfl
    obtain ⟨l, hrec, hl⟩ := record_answer_append x c (.pending (.ok e.dispatcher.pending.size))
    have hidle : ∀ entry ∈ l, entry.IsIdle := fun entry hm => by
      rw [hl entry hm]
      trivial
    have hrec : (x.answer c _).record = l ++ e.record := hrec
    have hdone' : (Command.count c).CarriedOut gone (l ++ e.record) := by
      have hm : Entry.enqueued (.count c) ∈ e.record := by
        rw [← mem_sent, hsent, hc]
        simp
      obtain ⟨-, -, hgone | ⟨a, ha⟩ | ⟨w, hw⟩⟩ := ha.sent _ hm
      · exact .inl hgone
      · exact .inr ⟨a, List.mem_append_right _ ha⟩
      · refine .inr ⟨.pending (.ok e.dispatcher.pending.size), ?_⟩
        rw [← hrec, record_answer_of_waits (hx ▸ hw)]
        exact List.mem_cons_self
    refine ⟨fun path c' => ?_, done ++ [.count c], ?_, fun command hm => ?_⟩
    · rw [hrec, outstanding_append fun entry hm => (hidle entry hm).not_touches path,
        dispatcher_answer]
      exact h.pending path c'
    · rw [hrec, sent_append, sent_of_isIdle hidle, List.append_nil, hsent, dispatcher_answer, hc]
      simp [hs, Stage.out, Stage.call?]
    · rw [hrec]
      rcases List.mem_append.1 hm with hm | hm
      · exact (hdone command hm).mono (List.Subset.refl _) (List.subset_append_right _ _)
      · rw [List.mem_singleton.1 hm]
        exact hdone'

/-- A turn of the dispatcher, of which the replies come after the entry that tells of it. -/
theorem turn {entry : Entry} {r : Dispatcher × List Reply} (hm : entry.isMilestone = true)
    (hc : entry.command? = none)
    (hp : ∀ path c, r.1.pending.get? path = some c ↔ Outstanding path c (entry :: e.record))
    (hq : ∃ done, sent e.record = done ++ (r.1.stage.out ++ r.1.commands) ∧
      ∀ command ∈ done, command.CarriedOut gone (entry :: e.record)) :
    ((e.note entry).dispatch r).Tallies gone := by
  obtain ⟨answers, hr, hanswers⟩ := record_dispatch (e.note entry) r
  rw [record_note, if_pos hm] at hr
  have hidle : ∀ x ∈ answers, x.IsIdle := fun x hx => by
    obtain ⟨c, a, rfl⟩ := hanswers x hx
    trivial
  obtain ⟨done, hs, hd⟩ := hq
  refine ⟨fun path c => ?_, done, ?_, fun command hcommand => ?_⟩
  · rw [dispatcher_dispatch, hr, outstanding_append fun x hx => (hidle x hx).not_touches path]
    exact hp path c
  · rw [dispatcher_dispatch, hr, sent_append, sent_of_isIdle hidle, List.append_nil,
      sent_cons_of_none hc, hs]
  · rw [hr]
    exact (hd command hcommand).mono (List.Subset.refl _) (List.subset_append_right _ _)

theorem callReturn (h : e.Tallies gone) {c : CallerId} {request : JobRequest}
    {result : Except Error String} {r : Dispatcher × List Reply}
    (hs : e.dispatcher.stage = .calling c request) (hr : e.dispatcher.called? result = some r) :
    ((e.note (.jobReturned c result)).dispatch r).Tallies gone := by
  obtain ⟨done, hsent, hdone⟩ := h.queue
  refine turn rfl rfl (fun path c' => ?_) ⟨done ++ [.submit c request], ?_, fun command hm => ?_⟩
  · obtain ⟨err, rfl, rfl⟩ | ⟨path', rfl, rfl⟩ := Dispatcher.called_cases hs hr
    · rw [outstanding_cons (by rintro (⟨c, he⟩ | he) <;> cases he)]
      exact h.pending path c'
    · rw [Table.get?_put]
      by_cases hpath : path = path'
      · subst hpath
        rw [if_pos rfl, outstanding_returned, Option.some.injEq]
      · rw [if_neg hpath, outstanding_cons]
        · exact h.pending path c'
        · rintro (⟨c, he⟩ | he)
          · cases he
            exact hpath rfl
          · exact he
  · rw [hsent, hs]
    obtain ⟨err, -, rfl⟩ | ⟨path', -, rfl⟩ := Dispatcher.called_cases hs hr <;>
      simp [Stage.out, Stage.call?]
  · rcases List.mem_append.1 hm with hm | hm
    · exact (hdone command hm).mono (List.Subset.refl _) (List.subset_cons_self _ _)
    · rw [List.mem_singleton.1 hm]
      exact ⟨result, List.mem_cons_self⟩

theorem takeSignal (h : e.Tallies gone) {item : Except Error Signal}
    {rest : List (Except Error Signal)} {r : Dispatcher × List Reply}
    (hi : e.dispatcher.signals = item :: rest) (hr : e.dispatcher.takeSignal? = some r) :
    ((e.note (.tookSignal item)).dispatch r).Tallies gone := by
  obtain ⟨done, hsent, hdone⟩ := h.queue
  refine turn rfl rfl (fun path c' => ?_) ⟨done, ?_, fun command hm =>
    (hdone command hm).mono (List.Subset.refl _) (List.subset_cons_self _ _)⟩
  · by_cases hrep : ∃ output, Signal.reported? item = some (path, output)
    · have hends : (Entry.tookSignal item).Ends path := hrep
      obtain ⟨output, hrep⟩ := hrep
      obtain ⟨-, -, hnone, -⟩ := Dispatcher.takeSignal_pending hi hr
      rw [hnone path output hrep]
      exact ⟨fun he => (by cases he), fun ho => absurd ho (not_outstanding_of_ends hends)⟩
    · have hsame : r.1.pending.get? path = e.dispatcher.pending.get? path := by
        obtain ⟨-, ⟨path', output, c, hrep', -, rfl⟩ | ⟨stage, -, -, rfl⟩⟩ :=
          Dispatcher.takeSignal_cases hi hr
        · refine (e.dispatcher.pending.get?_erase path' path).trans (if_neg ?_)
          rintro rfl
          exact hrep ⟨output, hrep'⟩
        · rfl
      rw [hsame, outstanding_cons]
      · exact h.pending path c'
      · rintro (⟨c, he⟩ | he)
        · cases he
        · exact hrep he
  · rw [hsent]
    obtain ⟨hs, ⟨path', output, c, -, -, rfl⟩ | ⟨stage, hstage, -, rfl⟩⟩ :=
      Dispatcher.takeSignal_cases hi hr
    · rfl
    · obtain rfl | ⟨parcel, rfl⟩ := hstage <;> simp [hs, Stage.out, Stage.call?]

theorem move (ha : e.Attends gone) (h : e.Tallies gone) (hm : Move e e')
    (hrun : e'.dispatcher.hasStopped = false) : e'.Tallies gone := by
  have hsub := List.Subset.refl gone
  cases hm with
  | rest => exact h
  | number => exact h.extend (l := []) hsub rfl (by simp) rfl rfl rfl
  | refuse _ hd =>
    exact h.extend (l := [_]) hsub (record_note _ _) (by simp [Entry.IsIdle]) rfl rfl rfl
  | enrol hw => exact h.extend (l := []) hsub rfl (by simp) rfl rfl rfl
  | submit hs hl => exact h.send _ _
  | count hs => exact h.send _ _
  | serve hw hk _ => exact h.answer _ _
  | expire hw => exact h.answer _ _
  | operate hh hi => exact h.book _ _
  | @resume holder answer hh =>
    have hn : ({ e with holder := none }.note (.matchReturned holder.call answer)).Tallies gone :=
      h.extend (l := [.matchReturned holder.call answer]) hsub (record_note _ _)
        (by simp [Entry.IsIdle]) rfl rfl rfl
    exact hn.book _ _
  | arrive item =>
    obtain ⟨signals, hd⟩ := e.dispatcher.receive_eq item
    rw [hd]
    exact h.extend (l := [.arrived item]) hsub (record_note _ _) (by simp [Entry.IsIdle]) rfl rfl
      rfl
  | endSignals => exact h.extend (l := []) hsub rfl (by simp) rfl rfl rfl
  | takeCommand hr => exact takeCommand ha h hr
  | callReturn hs hr => exact h.callReturn hs hr
  | takeSignal hi hr => exact h.takeSignal hi hr
  | stop hs =>
    rw [dispatcher_dispatch] at hrun
    cases hrun

end Tallies

theorem Visited.tallies {gone : List CallerId} {e : Engine} (h : Visited gone e)
    (hs : e.dispatcher.hasStopped = false) : e.Tallies gone := by
  induction h with
  | start capacity timer => exact .start capacity timer
  | alike _ ha ih => exact (ih (ha.stopped ▸ hs)).alike ha
  | @move gone e e' h hm ih =>
    obtain ⟨l, hadds⟩ := hm.adds
    have hrun : e.dispatcher.hasStopped = false :=
      Bool.eq_false_iff.2 fun hstop => by simp [(hadds.halted hstop).1] at hs
    exact (ih hrun).move h.attends hm hs
  | vanish _ hw hf ih =>
    exact (ih hs).extend (l := []) (List.subset_append_left _ _) rfl (by simp) rfl rfl rfl

variable {e e' : Engine} {gone : List CallerId}

theorem Tallies.mem_keys_iff (h : e.Tallies gone) (path : String) :
    path ∈ e.dispatcher.pending.keys ↔ ∃ c, Outstanding path c e.record := by
  rw [← Table.contains_iff_mem_keys, Table.contains, Option.isSome_iff_exists]
  exact exists_congr fun c => h.pending path c

theorem Reaction.desk_cases {event : Event} (h : e.Reaction event e') :
    event = .stop ∨
      ((e'.dispatcher.pending = e.dispatcher.pending ∨ (∃ result, event = .jobReturned result) ∨
          event = .takeSignal) ∧
        (e.dispatcher.commands <+: e'.dispatcher.commands ∨ event = .takeCommand)) := by
  have hrest (hp : e'.dispatcher.pending = e.dispatcher.pending)
      (hc : e.dispatcher.commands <+: e'.dispatcher.commands) : event = .stop ∨
        ((e'.dispatcher.pending = e.dispatcher.pending ∨ (∃ result, event = .jobReturned result) ∨
          event = .takeSignal) ∧
        (e.dispatcher.commands <+: e'.dispatcher.commands ∨ event = .takeCommand)) :=
    .inr ⟨.inl hp, .inl hc⟩
  have halike (ha : Alike e e') := hrest ha.pending (ha.commands ▸ List.prefix_rfl)
  cases ha : event.isAside with
  | true =>
    have hp := passesBy_of_reaction h ha
    exact hrest hp.pending hp.commands
  | false =>
    cases h with
    | takeFeed h => exact halike (alike_onFeed h)
    | hangUpFeed h => exact halike (alike_onFeed h)
    | @jobReturned c request result r hs hr =>
      refine .inr ⟨.inr (.inl ⟨_, rfl⟩), .inl ?_⟩
      rw [dispatcher_dispatch]
      obtain ⟨err, -, rfl⟩ | ⟨path, -, rfl⟩ := Dispatcher.called_cases hs hr <;>
        exact List.prefix_rfl
    | @grant task hh hq =>
      have ht : task = .dispatcher := by cases task <;> first | rfl | cases ha
      subst ht
      simp only [enter] at hrest ⊢
      split at hrest <;> exact hrest rfl List.prefix_rfl
    | takeCommand hr =>
      refine .inr ⟨.inl ?_, .inr rfl⟩
      obtain ⟨-, ⟨c, request, rest, -, he⟩ | ⟨c, rest, -, he⟩⟩ := takeCommand_turn hr
      · rw [he]
        rfl
      · rw [he, dispatcher_answer]
    | @takeSignal item rest r hi hr =>
      refine .inr ⟨.inr (.inr rfl), .inl ?_⟩
      rw [alike_askTargets.commands, dispatcher_dispatch]
      obtain ⟨-, ⟨path, output, c, -, -, rfl⟩ | ⟨stage, -, -, rfl⟩⟩ :=
        Dispatcher.takeSignal_cases hi hr <;> exact List.prefix_rfl
    | deliver hs => exact halike (alike_deliver hs)
    | look h => exact halike (alike_look h)
    | unblock h => exact halike (alike_unblock h)
    | stop h => exact .inl rfl
    | _ => cases ha

theorem desk_of_step {event : Event} (h : e.step event = some e') :
    ∃ e₁, e.Reaction event e₁ ∧ e'.dispatcher.desk = e₁.dispatcher.desk := by
  obtain ⟨e₁, hr, rfl | rfl⟩ := reaction_of_step h
  · exact ⟨_, hr, rfl⟩
  · exact ⟨e₁, hr, desk_rouse _⟩

/-- In one act the table gets the path that a call returns, or loses the path of a job of which the
end is taken, or stays as it is. -/
theorem pending_of_act {a : Act} (h : e.act a = some e') (hs : e'.dispatcher.hasStopped = false) :
    e'.dispatcher.pending = e.dispatcher.pending ∨
      (∃ c request path, e.dispatcher.stage = .calling c request ∧
        a = .event (.jobReturned (.ok path)) ∧
        e'.dispatcher.pending = e.dispatcher.pending.put path c) ∨
      ∃ id path unit word rest, a = .event .takeSignal ∧
        e.dispatcher.signals = .ok (.jobRemoved id path unit word) :: rest ∧
        e'.dispatcher.pending = e.dispatcher.pending.erase path := by
  obtain ⟨event, rfl, hstep⟩ | ⟨c, w, -, -, -, ha⟩ := act_cases h
  · obtain ⟨e₁, hr, hd⟩ := desk_of_step hstep
    have hpending : e'.dispatcher.pending = e₁.dispatcher.pending := congrArg Desk.pending hd
    have hstopped : e'.dispatcher.hasStopped = e₁.dispatcher.hasStopped :=
      congrArg Desk.stopped hd
    rw [hpending]
    obtain rfl | ⟨hp | ⟨result, rfl⟩ | rfl, -⟩ := hr.desk_cases
    · cases hr with
      | stop hmay =>
        rw [hstopped, dispatcher_dispatch] at hs
        cases hs
    · exact .inl hp
    · cases hr with
      | jobReturned hcalling hr =>
        rw [dispatcher_dispatch]
        obtain ⟨err, -, rfl⟩ | ⟨path, rfl, rfl⟩ := Dispatcher.called_cases hcalling hr
        · exact .inl rfl
        · exact .inr (.inl ⟨_, _, path, hcalling, rfl, rfl⟩)
    · cases hr with
      | @takeSignal item rest r hi hr =>
        rw [alike_askTargets.pending, dispatcher_dispatch]
        obtain ⟨-, ⟨path, output, c, hrep, -, rfl⟩ | ⟨stage, -, -, rfl⟩⟩ :=
          Dispatcher.takeSignal_cases hi hr
        · obtain ⟨id, unit, word, rfl, -⟩ := Signal.reported?_eq_some_iff.1 hrep
          exact .inr (.inr ⟨id, path, unit, word, rest, rfl, hi, rfl⟩)
        · exact .inl rfl
  · exact .inl ha.pending

theorem mem_record_of_note {entry new : Entry} (h : entry ∈ (e.note new).record)
    (hne : entry ≠ new) : entry ∈ e.record := by
  rw [record_note] at h
  split at h
  · exact (List.mem_cons.1 h).resolve_left hne
  · exact h

theorem mem_record_of_book {task : Task} {p : Registry × Registry.Progress} {c : CallerId}
    {result : Except Error Nat} (h : Entry.answered c (.pending result) ∈ (e.book task p).record) :
    Entry.answered c (.pending result) ∈ e.record := by
  obtain ⟨l, hr, hl⟩ := record_book e task p
  rw [hr] at h
  refine (List.mem_append.1 h).resolve_left fun hm => ?_
  obtain ⟨call, he⟩ | ⟨id, outcome, he⟩ := hl _ hm <;> cases he

theorem mem_record_of_dispatch {r : Dispatcher × List Reply} {c : CallerId} {a : Answer}
    (h : Entry.answered c a ∈ (e.dispatch r).record) (hr : ∀ reply ∈ r.2, reply.2 ≠ a) :
    Entry.answered c a ∈ e.record := by
  obtain ⟨answers, hrec, hanswers⟩ := record_answerAll { e with dispatcher := r.1 } r.2
  have h : _ ∈ ({ e with dispatcher := r.1 }.answerAll r.2).record := h
  rw [hrec] at h
  refine (List.mem_append.1 h).resolve_left fun hm => ?_
  obtain ⟨reply, hreply, he, -⟩ := hanswers _ hm
  exact hr reply hreply (Entry.answered.inj he).2.symm

theorem Move.told (ha : e.Attends gone) (hm : Move e e') {c : CallerId} {n : Nat}
    (hsent : Entry.enqueued (.count c) ∈ e'.record)
    (hnew : Entry.answered c (.pending (.ok n)) ∈ e'.record)
    (hold : Entry.answered c (.pending (.ok n)) ∉ e.record) :
    e'.dispatcher.hasStopped = false ∧ e.dispatcher.pending.size = n ∧
      e.dispatcher.commands = .count c :: e'.dispatcher.commands := by
  cases hm with
  | rest => exact absurd hnew hold
  | number => exact absurd hnew hold
  | @refuse a _ hd =>
    have hr : ({ e with fresh := e.fresh + 1 }.note (.answered e.fresh a)).record =
        .answered e.fresh a :: e.record := record_note _ _
    rw [hr] at hsent hnew
    obtain ⟨rfl, -⟩ := Entry.answered.inj ((List.mem_cons.1 hnew).resolve_right hold)
    have hm : Entry.enqueued (.count e.fresh) ∈ e.record := by simpa using hsent
    exact absurd (ha.sent _ hm).1 (Nat.lt_irrefl _)
  | enrol hw => exact absurd hnew hold
  | submit hs hl => exact absurd (mem_record_of_note hnew (by simp)) hold
  | count hs => exact absurd (mem_record_of_note hnew (by simp)) hold
  | @serve id w a hw hk _ =>
    rw [record_answer_of_waits hw] at hsent hnew
    obtain ⟨rfl, -⟩ := Entry.answered.inj ((List.mem_cons.1 hnew).resolve_right hold)
    have hm : Entry.enqueued (.count c) ∈ e.record := by simpa using hsent
    have hfor : w.IsFor (.count c) := (ha.sent _ hm).2.1 w hw
    obtain rfl | ⟨q, rfl⟩ := hk <;> exact hfor.elim
  | expire hw =>
    rw [record_answer_of_waits hw] at hnew
    cases (List.mem_cons.1 hnew).resolve_right hold
  | operate hh hi => exact absurd (mem_record_of_book hnew) hold
  | @resume holder answer hh =>
    exact absurd (mem_record_of_note (mem_record_of_book hnew) (by simp)) hold
  | arrive item => exact absurd (mem_record_of_note hnew (by simp)) hold
  | endSignals => exact absurd hnew hold
  | takeCommand hr =>
    obtain ⟨hs, ⟨c', request, rest, hc, he⟩ | ⟨c', rest, hc, he⟩⟩ := takeCommand_turn hr
    · rw [he] at hnew
      exact absurd (mem_record_of_note hnew (by simp)) hold
    · rw [he] at hnew ⊢
      obtain ⟨l, hrec, hl⟩ := record_answer_append
        { e with dispatcher := { e.dispatcher with commands := rest } } c'
        (.pending (.ok e.dispatcher.pending.size))
      rw [hrec] at hnew
      obtain ⟨rfl, hsize⟩ :=
        Entry.answered.inj (hl _ ((List.mem_append.1 hnew).resolve_right hold))
      cases hsize
      rw [dispatcher_answer]
      exact ⟨by simp only [Dispatcher.hasStopped, hs], rfl, hc⟩
  | callReturn hs hr =>
    have hnew := mem_record_of_dispatch hnew fun _ hm => Dispatcher.reply_ne_of_called hs hr hm n
    exact absurd (mem_record_of_note hnew (by simp)) hold
  | takeSignal hi hr =>
    have hnew := mem_record_of_dispatch hnew fun _ hm =>
      Dispatcher.reply_ne_of_takeSignal hi hr hm n
    exact absurd (mem_record_of_note hnew (by simp)) hold
  | stop hs =>
    have hnew := mem_record_of_dispatch hnew fun _ hm => Dispatcher.reply_ne_of_stop hs hm n
    exact absurd (mem_record_of_note hnew (by simp)) hold

theorem told_of_act {a : Act} (ha : e.Attends gone) (h : e.act a = some e') {c : CallerId}
    {n : Nat} (hsent : Entry.enqueued (.count c) ∈ e'.record)
    (hnew : Entry.answered c (.pending (.ok n)) ∈ e'.record)
    (hold : Entry.answered c (.pending (.ok n)) ∉ e.record) :
    a = .event .takeCommand ∧ e.dispatcher.stage = .idle ∧ e.dispatcher.pending.size = n ∧
      ∃ rest, e.dispatcher.commands = .count c :: rest := by
  obtain ⟨event, rfl, hstep⟩ | ⟨c', w, -, -, -, halike⟩ := act_cases h
  · obtain ⟨e₁, e₂, h₁, hm, h₂⟩ := moves_of_step hstep
    obtain ⟨hrun, hsize, hc⟩ := hm.told (ha.alike h₁) (h₂.record ▸ hsent) (h₂.record ▸ hnew)
      (h₁.record ▸ hold)
    rw [h₁.pending] at hsize
    rw [h₁.commands, ← h₂.commands] at hc
    rw [← h₂.stopped] at hrun
    obtain ⟨x, hr, hd⟩ := desk_of_step hstep
    obtain rfl | ⟨-, hp | rfl⟩ := hr.desk_cases
    · cases hr with
      | stop hmay =>
        have hstopped : e'.dispatcher.hasStopped = true := by
          have hx := congrArg Desk.stopped hd
          rwa [dispatcher_dispatch] at hx
        rw [hstopped] at hrun
        cases hrun
    · -- the queue has become shorter, which is only so when a command is taken
      have hlen : x.dispatcher.commands = e'.dispatcher.commands :=
        (congrArg Desk.commands hd).symm
      rw [hc, hlen] at hp
      exact absurd hp.length_le (by simp)
    · cases hr with
      | takeCommand hr => exact ⟨rfl, (takeCommand_turn hr).1, hsize, _, hc⟩
  · rw [halike.record] at hnew
    exact absurd hnew hold

theorem told_of_acts {capacity : Nat} {timer : Timer} {l : List Act}
    (h : (start capacity timer).acts l = some e) {c : CallerId} {n : Nat}
    (hsent : Entry.enqueued (.count c) ∈ e.record)
    (htold : Entry.answered c (.pending (.ok n)) ∈ e.record) :
    ∃ before after x rest, l = before ++ .event .takeCommand :: after ∧
      (start capacity timer).acts before = some x ∧ x.dispatcher.stage = .idle ∧
      x.dispatcher.commands = .count c :: rest ∧ x.dispatcher.pending.size = n := by
  induction l using List.reverseRecOn generalizing e with
  | nil =>
    cases h
    cases htold
  | append_singleton l a ih =>
    obtain ⟨x, hx, ha⟩ := acts_concat.1 h
    have hattends := (visited_of_acts hx).attends
    by_cases hold : Entry.answered c (.pending (.ok n)) ∈ x.record
    · have hsentx : Entry.enqueued (.count c) ∈ x.record := by
        obtain ⟨newer, hadds⟩ := adds_of_act ha
        rw [hadds.record] at hsent
        refine (List.mem_append.1 hsent).resolve_left fun hm => ?_
        have hc : c = x.fresh := hadds.newcomer _ hm
        exact absurd (hattends.answered_lt c _ hold) (hc ▸ Nat.lt_irrefl _)
      obtain ⟨before, after, y, rest, rfl, hy⟩ := ih hx hsentx hold
      exact ⟨before, after ++ [a], y, rest, by simp, hy⟩
    · obtain ⟨rfl, hs, hsize, rest, hc⟩ := told_of_act hattends ha hsent htold hold
      exact ⟨l, [], x, rest, rfl, hx, hs, hc, hsize⟩

theorem act_takeCommand_count {c : CallerId} {rest : List Command} {w : Wait}
    (hs : e.dispatcher.stage = .idle) (hc : e.dispatcher.commands = .count c :: rest)
    (hw : e.callers.get? c = some w) : ∃ e', e.act (.event .takeCommand) = some e' ∧
      e'.record = .answered c (.pending (.ok e.dispatcher.pending.size)) :: e.record := by
  obtain ⟨r, hr⟩ : ∃ r, e.dispatcher.takeCommand? = some r := by
    simp only [Dispatcher.takeCommand?, hs, hc]
    exact ⟨_, rfl⟩
  simp only [act, step, react, hr, Option.map_some, Option.some.injEq]
  refine ⟨_, rfl, (alike_startleIf _ _).record.trans ?_⟩
  obtain ⟨-, ⟨c', request, rest', hc', -⟩ | ⟨c', rest', hc', he⟩⟩ := takeCommand_turn hr
  · cases hc.symm.trans hc'
  · cases hc.symm.trans hc'
    rw [he]
    exact record_answer_of_waits (e := { e with dispatcher := { e.dispatcher with
      commands := rest } }) hw _

/-- In every run, whoever goes away meanwhile, and as long as the dispatcher runs: the table has the
paths that some call has returned and of which no end was taken since the last call that returned
them, each with the caller of that call; an act changes it only where such a call returns or such an
end is taken. A number of pending jobs is told when the command that asks for it is taken, is the
number of these paths at that moment, and all commands sent before are carried out then. -/
theorem acts_pending {capacity : Nat} {timer : Timer} {l : List Act}
    (h : (start capacity timer).acts l = some e) :
    (e.dispatcher.hasStopped = false →
      (∀ path c, e.dispatcher.pending.get? path = some c ↔ Outstanding path c e.record) ∧
      ∀ path, path ∈ e.dispatcher.pending.keys ↔ ∃ c, Outstanding path c e.record) ∧
    (∀ a e', e.act a = some e' → e'.dispatcher.hasStopped = false →
      e'.dispatcher.pending = e.dispatcher.pending ∨
        (∃ c request path, e.dispatcher.stage = .calling c request ∧
          a = .event (.jobReturned (.ok path)) ∧
          e'.dispatcher.pending = e.dispatcher.pending.put path c) ∨
        ∃ id path unit word rest, a = .event .takeSignal ∧
          e.dispatcher.signals = .ok (.jobRemoved id path unit word) :: rest ∧
          e'.dispatcher.pending = e.dispatcher.pending.erase path) ∧
    (∀ c n, Entry.enqueued (.count c) ∈ e.record →
      Entry.answered c (.pending (.ok n)) ∈ e.record →
      ∃ before after x rest, l = before ++ .event .takeCommand :: after ∧
        (start capacity timer).acts before = some x ∧ x.dispatcher.commands = .count c :: rest ∧
        (∃ paths : List String, paths.Nodup ∧ paths.length = n ∧
          ∀ path, path ∈ paths ↔ ∃ c', Outstanding path c' x.record) ∧
        ∃ earlier, sent x.record = earlier ++ .count c :: rest ∧
          ∀ command ∈ earlier, command.CarriedOut (departed before) x.record) ∧
    ∀ c rest w, e.dispatcher.stage = .idle → e.dispatcher.commands = .count c :: rest →
      e.callers.get? c = some w → ∃ e', e.act (.event .takeCommand) = some e' ∧
        e'.record = .answered c (.pending (.ok e.dispatcher.pending.size)) :: e.record := by
  refine ⟨fun hs => ?_, fun a e' => pending_of_act, fun c n hsent htold => ?_,
    fun c rest w hs hc hw => act_takeCommand_count hs hc hw⟩
  · have ht := (visited_of_acts h).tallies hs
    exact ⟨ht.pending, ht.mem_keys_iff⟩
  · obtain ⟨before, after, x, rest, rfl, hx, hs, hc, rfl⟩ := told_of_acts h hsent htold
    have ht := (visited_of_acts hx).tallies (by simp only [Dispatcher.hasStopped, hs])
    obtain ⟨done, hdone, hcarried⟩ := ht.queue
    refine ⟨before, after, x, rest, rfl, hx, hc, ⟨x.dispatcher.pending.keys,
      x.dispatcher.pending.distinct, List.length_map _, ht.mem_keys_iff⟩, done, ?_, hcarried⟩
    rw [hdone, hs, hc]
    rfl

/-- Two jobs are begun, of which one ends and the other loses its caller; then a call fails, and
somebody asks for the number of pending jobs. -/
def counting : List Act :=
  [.event (.call (.submit ⟨"StartUnit", ["a.service", "replace"]⟩ none)), .event .takeCommand,
    .event (.jobReturned (.ok "/job/1")),
    .event (.call (.submit ⟨"StartUnit", ["b.service", "replace"]⟩ none)), .event .takeCommand,
    .event (.jobReturned (.ok "/job/2")), .vanish 1,
    .event (.signal (.ok (.jobRemoved 1 "/job/1" "a.service" "done"))), .event .takeSignal,
    .event (.call (.submit ⟨"StopUnit", ["c.service", "replace"]⟩ none)),
    .event (.call .pendingJobs), .event .takeCommand,
    .event (.jobReturned (.error (.unitNotFound "c.service"))), .event .takeCommand]

/-- One job is pending, and the failed call came first. -/
theorem acts_pending_counting :
    ∃ e, (start 1 .exact).acts counting = some e ∧ e.dispatcher.pending.keys = ["/job/2"] ∧
      (∃ c, Outstanding "/job/2" c e.record) ∧ (¬∃ c, Outstanding "/job/1" c e.record) ∧
      Entry.answered 3 (.pending (.ok 1)) ∈ e.record ∧
      ∃ before x rest earlier, (start 1 .exact).acts before = some x ∧
        sent x.record = earlier ++ .count 3 :: rest ∧
        ∀ command ∈ earlier, command.CarriedOut (departed before) x.record := by
  obtain ⟨e, hr⟩ : ∃ e, (start 1 .exact).acts counting = some e := ⟨_, rfl⟩
  have h := acts_pending hr
  have hstate : e.dispatcher.hasStopped = false ∧ e.dispatcher.pending.keys = ["/job/2"] ∧
      e.record.head? = some (.answered 3 (.pending (.ok 1))) ∧
      sent e.record = [.submit 0 ⟨"StartUnit", ["a.service", "replace"]⟩,
        .submit 1 ⟨"StartUnit", ["b.service", "replace"]⟩,
        .submit 2 ⟨"StopUnit", ["c.service", "replace"]⟩, .count 3] := by
    cases hr
    exact ⟨rfl, rfl, rfl, rfl⟩
  obtain ⟨hs, hkeys, hhead, hsent⟩ := hstate
  have htold := List.mem_of_mem_head? hhead
  have hasked : Entry.enqueued (.count 3) ∈ e.record := by
    rw [← mem_sent, hsent]
    simp
  have htable := (h.1 hs).2
  rw [hkeys] at htable
  obtain ⟨before, -, x, rest, -, hx, -, -, earlier, hq, hd⟩ := h.2.2.1 3 1 hasked htold
  refine ⟨e, hr, hkeys, (htable _).1 (by simp), fun ho => ?_, htold,
    before, x, rest, earlier, hx, hq, hd⟩
  have hm := (htable _).2 ho
  simp at hm

end Engine

end UnitControl
