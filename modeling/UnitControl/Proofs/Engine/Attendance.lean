import UnitControl.Proofs.Engine.Act
import UnitControl.Proofs.Engine.Pursuit

/-!
# Whom the dispatcher has before it

As long as the dispatcher runs, whoever waits for it has a command in its hands: in the queue, on
the way to the bus, or in the table of pending jobs. That is so whoever has gone away meanwhile.
-/

namespace UnitControl

@[simp] theorem Command.fst_refusal (command : Command) : command.refusal.1 = command.caller := by
  cases command <;> rfl

/-- This is how one waits for the answer to the command. -/
def Wait.IsFor : Wait → Command → Prop
  | job _, .submit .. | pending, .count _ => True
  | _, _ => False

namespace Wait.IsFor

variable {w : Wait} {command command' : Command}

theorem isForReply (h : w.IsFor command) : w.IsForReply := by
  unfold IsFor at h
  split at h
  · trivial
  · trivial
  · exact h.elim

theorem refusal_eq (h : w.IsFor command) (h' : w.IsFor command')
    (hc : command'.caller = command.caller) : command'.refusal = command.refusal := by
  cases w <;> cases command <;> cases command' <;> first
    | exact h.elim
    | exact h'.elim
    | exact congrArg (Prod.mk · _) hc

end Wait.IsFor

namespace Dispatcher

/-- The dispatcher has the command before it; of a job that is pending it knows the caller only. -/
def Keeps (d : Dispatcher) : Command → Prop
  | .submit c _ => d.Tracks c
  | .count c => .count c ∈ d.commands

variable {d d' : Dispatcher} {command command' : Command}

theorem keeps_congr (hc : d'.commands = d.commands) (hs : d'.stage.call? = d.stage.call?)
    (hp : d'.pending = d.pending) (command : Command) : d'.Keeps command ↔ d.Keeps command := by
  cases command <;> simp only [Keeps, Tracks, hc, hs, hp]

theorem keeps_of_mem (h : command ∈ d.commands) : d.Keeps command := by
  cases command with
  | submit c request => exact .inl ⟨request, h⟩
  | count c => exact h

theorem Keeps.enqueue (h : d.Keeps command) (new : Command) : (d.enqueue new).Keeps command := by
  cases command with
  | submit c request =>
    exact h.imp_left (Exists.imp fun request hm => List.mem_append_left _ hm)
  | count c => exact List.mem_append_left _ h

theorem keeps_of_enqueue {new : Command} (h : (d.enqueue new).Keeps command) :
    d.Keeps command ∨ (command.caller = new.caller ∧
      ∀ w : Wait, w.IsFor new → w.IsFor command) := by
  cases command with
  | submit c request =>
    obtain ⟨request', hm⟩ | h := h
    · rcases List.mem_append.1 hm with hm | hm
      · exact .inl (.inl ⟨request', hm⟩)
      · rw [← List.mem_singleton.1 hm]
        refine .inr ⟨rfl, fun w hw => ?_⟩
        cases w <;> first | exact hw.elim | trivial
    · exact .inl (.inr h)
  | count c =>
    rcases List.mem_append.1 h with hm | hm
    · exact .inl hm
    · rw [← List.mem_singleton.1 hm]
      exact .inr ⟨rfl, fun w hw => hw⟩

/-- A path that is returned goes to the caller whose call was out, whoever waited for it before. -/
theorem keeps_expect {c : CallerId} {request : JobRequest} (hs : d.stage = .calling c request)
    (path : String) (command : Command) :
    ({ d with stage := .idle, pending := d.pending.put path c }.Keeps command →
        d.Keeps command) ∧
      (d.pending.get? path ≠ some command.caller → d.Keeps command →
        { d with stage := .idle, pending := d.pending.put path c }.Keeps command) := by
  cases command with
  | count c' => exact ⟨id, fun _ => id⟩
  | submit c' request' =>
    simp only [Keeps, Tracks, Stage.call?, hs, Table.get?_put, Command.caller, Option.some.injEq,
      Prod.mk.injEq]
    constructor
    · rintro (hq | ⟨_, hcall⟩ | ⟨path', hp⟩)
      · exact .inl hq
      · cases hcall
      · split at hp
        · exact .inr (.inl ⟨request, Option.some.inj hp, rfl⟩)
        · exact .inr (.inr ⟨path', hp⟩)
    · rintro hne (hq | ⟨_, hcall, -⟩ | ⟨path', hp⟩)
      · exact .inl hq
      · exact .inr (.inr ⟨path, by simp [hcall]⟩)
      · refine .inr (.inr ⟨path', ?_⟩)
        rwa [if_neg]
        rintro rfl
        exact hne hp

theorem keeps_resolve {c : CallerId} {path : String} {signals : List (Except Error Signal)}
    (hp : d.pending.get? path = some c) (command : Command) :
    ({ d with signals := signals, pending := d.pending.erase path }.Keeps command →
        d.Keeps command) ∧
      (command.caller ≠ c → d.Keeps command →
        { d with signals := signals, pending := d.pending.erase path }.Keeps command) := by
  cases command with
  | count c' => exact ⟨id, fun _ => id⟩
  | submit c' request' =>
    simp only [Keeps, Tracks, Table.get?_erase, Command.caller]
    constructor
    · rintro (hq | hcall | ⟨path', hp'⟩)
      · exact .inl hq
      · exact .inr (.inl hcall)
      · split at hp'
        · cases hp'
        · exact .inr (.inr ⟨path', hp'⟩)
    · rintro hne (hq | hcall | ⟨path', hp'⟩)
      · exact .inl hq
      · exact .inr (.inl hcall)
      · refine .inr (.inr ⟨path', ?_⟩)
        rwa [if_neg]
        rintro rfl
        exact hne (Option.some.inj (hp'.symm.trans hp))

/-- Stopping replies to the commands that the dispatcher has before it, and to nobody else. -/
theorem mem_stop_iff (hs : d.stage = .idle) {reply : Reply} :
    reply ∈ d.stop.2 ↔ ∃ command, d.Keeps command ∧ reply = command.refusal := by
  simp only [stop, List.mem_append, List.mem_map]
  constructor
  · rintro (⟨⟨path, c⟩, hm, rfl⟩ | ⟨command, hm, rfl⟩)
    · exact ⟨.submit c ⟨"", []⟩, .inr (.inr ⟨path, Table.get?_eq_some_iff.2 hm⟩), rfl⟩
    · exact ⟨command, keeps_of_mem hm, rfl⟩
  · rintro ⟨command, hk, rfl⟩
    cases command with
    | submit c request =>
      obtain ⟨request', hm⟩ | ⟨request', hc⟩ | ⟨path, hp⟩ := hk
      · exact .inr ⟨_, hm, rfl⟩
      · rw [hs] at hc
        cases hc
      · exact .inl ⟨(path, c), Table.get?_eq_some_iff.1 hp, rfl⟩
    | count c => exact .inr ⟨_, hk, rfl⟩

end Dispatcher

/-- No command, and no answer but to a caller that has its number already. -/
def Entry.IsMinor (fresh : Nat) : Entry → Prop
  | enqueued _ => False
  | answered c _ => c < fresh
  | _ => True

namespace Engine

/-- Who waits for the dispatcher, and what was sent to it, once the callers in `gone` have gone. -/
structure Attends (gone : List CallerId) (e : Engine) : Prop where
  waits_lt : ∀ c w, e.callers.get? c = some w → c < e.fresh
  keeps : ∀ command, e.dispatcher.Keeps command → command.caller < e.fresh ∧
    ∀ w, e.callers.get? command.caller = some w → w.IsFor command
  attended : e.dispatcher.hasStopped = false → ∀ c w, e.callers.get? c = some w → w.IsForReply →
    ∃ command, command.caller = c ∧ e.dispatcher.Keeps command
  relieved : e.dispatcher.hasStopped = true → ∀ c w, e.callers.get? c = some w → ¬w.IsForReply
  sent : ∀ command, Entry.enqueued command ∈ e.record → command.caller < e.fresh ∧
    (∀ w, e.callers.get? command.caller = some w → w.IsFor command) ∧
    (command.caller ∈ gone ∨ (∃ a, Entry.answered command.caller a ∈ e.record) ∨
      ∃ w, e.callers.get? command.caller = some w)
  answered_lt : ∀ c a, Entry.answered c a ∈ e.record → c < e.fresh

namespace Attends

variable {e e' : Engine} {gone gone' : List CallerId}

theorem start (capacity : Nat) (timer : Timer) : (Engine.start capacity timer).Attends [] where
  waits_lt c w hw := by cases hw
  keeps command hk := by
    cases command with
    | submit c request => obtain ⟨request, hm⟩ | ⟨request, hc⟩ | ⟨path, hp⟩ := hk <;> contradiction
    | count c => cases hk
  attended _ c w hw := by cases hw
  relieved _ c w hw := by cases hw
  sent command hm := by cases hm
  answered_lt c a hm := by cases hm

/-- A change that brings no command. Whoever waited for the dispatcher still does, or is answered,
or has gone. -/
theorem carry (h : e.Attends gone) {l : List Entry} (hg : gone ⊆ gone') (hf : e.fresh ≤ e'.fresh)
    (hr : e'.record = l ++ e.record) (hl : ∀ entry ∈ l, entry.IsMinor e'.fresh)
    (hold : ∀ c w, e'.callers.get? c = some w → e.callers.get? c = some w ∨
      (c < e'.fresh ∧ ¬w.IsForReply ∧
        (c = e.fresh ∨ ∃ w', e.callers.get? c = some w' ∧ ¬w'.IsForReply)))
    (hgo : ∀ c w, e.callers.get? c = some w → w.IsForReply →
      e'.callers.get? c = some w ∨ c ∈ gone' ∨ ∃ a, Entry.answered c a ∈ e'.record)
    (hk : ∀ command, e'.dispatcher.Keeps command → e.dispatcher.Keeps command)
    (hs : e'.dispatcher.hasStopped = e.dispatcher.hasStopped)
    (hkeep : ∀ command w, e'.callers.get? command.caller = some w →
      e.dispatcher.Keeps command → e'.dispatcher.Keeps command) : e'.Attends gone' := by
  have hfor : ∀ command, command.caller < e.fresh →
      (∀ w, e.callers.get? command.caller = some w → w.IsFor command) →
      ∀ w, e'.callers.get? command.caller = some w → w.IsFor command := by
    intro command hlt hfor w hw
    obtain hw | ⟨-, -, hc | ⟨w', hw', hn⟩⟩ := hold _ w hw
    · exact hfor w hw
    · exact absurd hlt (hc ▸ Nat.lt_irrefl _)
    · exact absurd (hfor w' hw').isForReply hn
  constructor
  · intro c w hw
    obtain hw | ⟨hlt, -⟩ := hold c w hw
    · exact Nat.lt_of_lt_of_le (h.waits_lt c w hw) hf
    · exact hlt
  · intro command hkc
    obtain ⟨hlt, hold⟩ := h.keeps command (hk command hkc)
    exact ⟨Nat.lt_of_lt_of_le hlt hf, hfor command hlt hold⟩
  · intro hrun c w hw hreply
    obtain hwold | ⟨-, hn, -⟩ := hold c w hw
    · obtain ⟨command, rfl, hkc⟩ := h.attended (hs ▸ hrun) c w hwold hreply
      exact ⟨command, rfl, hkeep command w hw hkc⟩
    · exact absurd hreply hn
  · intro hstop c w hw
    obtain hw | ⟨-, hn, -⟩ := hold c w hw
    · exact h.relieved (hs ▸ hstop) c w hw
    · exact hn
  · intro command hm
    rw [hr] at hm
    obtain ⟨hlt, hold, hcase⟩ :=
      h.sent command ((List.mem_append.1 hm).resolve_left fun hm => hl _ hm)
    refine ⟨Nat.lt_of_lt_of_le hlt hf, hfor command hlt hold, ?_⟩
    obtain hgone | ⟨a, ha⟩ | ⟨w, hw⟩ := hcase
    · exact .inl (hg hgone)
    · exact .inr (.inl ⟨a, hr ▸ List.mem_append_right _ ha⟩)
    · obtain hw' | hgone | ha := hgo _ w hw (hold w hw).isForReply
      · exact .inr (.inr ⟨w, hw'⟩)
      · exact .inl hgone
      · exact .inr (.inl ha)
  · intro c a hm
    rw [hr] at hm
    rcases List.mem_append.1 hm with hm | hm
    · exact hl _ hm
    · exact Nat.lt_of_lt_of_le (h.answered_lt c a hm) hf

/-- Nothing is different but the record, and what the dispatcher has to do with nobody's command. -/
theorem append (h : e.Attends gone) {l : List Entry} (hf : e.fresh ≤ e'.fresh)
    (hr : e'.record = l ++ e.record) (hl : ∀ entry ∈ l, entry.IsMinor e'.fresh)
    (hc : e'.callers = e.callers)
    (hk : ∀ command, e'.dispatcher.Keeps command ↔ e.dispatcher.Keeps command)
    (hs : e'.dispatcher.hasStopped = e.dispatcher.hasStopped) : e'.Attends gone :=
  h.carry (List.Subset.refl _) hf hr hl (fun _ _ hw => .inl (hc ▸ hw))
    (fun _ _ hw _ => .inl (hc ▸ hw)) (fun command => (hk command).1) hs
    fun command _ _ => (hk command).2

theorem alike (ha : Alike e e') (h : e.Attends gone) : e'.Attends gone :=
  h.append (l := []) (Nat.le_of_eq ha.fresh.symm) ha.record (by simp) ha.callers
    (Dispatcher.keeps_congr ha.commands ha.call ha.pending) ha.stopped

theorem reply (h : e.Attends gone) {x : Engine} {l : List Entry} {id : CallerId} (a : Answer)
    (hf : x.fresh = e.fresh) (hc : x.callers = e.callers) (hr : x.record = l ++ e.record)
    (hl : ∀ entry ∈ l, entry.IsMinor e.fresh)
    (hk : ∀ command, x.dispatcher.Keeps command → e.dispatcher.Keeps command)
    (hs : x.dispatcher.hasStopped = e.dispatcher.hasStopped)
    (hkeep : ∀ command, command.caller ≠ id → e.dispatcher.Keeps command →
      x.dispatcher.Keeps command) : (x.answer id a).Attends gone := by
  have hf' : (x.answer id a).fresh = e.fresh := (fresh_answer x id a).trans hf
  obtain ⟨l', hr', hnew⟩ : ∃ l', (x.answer id a).record = l' ++ e.record ∧
      ∀ entry ∈ l', entry.IsMinor e.fresh := by
    cases hw : x.callers.get? id with
    | none => exact ⟨l, (record_answer_of_none hw a).trans hr, hl⟩
    | some w =>
      refine ⟨.answered id a :: l, (record_answer_of_waits hw a).trans (congrArg _ hr), ?_⟩
      intro entry hm
      rcases List.mem_cons.1 hm with rfl | hm
      · exact h.waits_lt id w (hc ▸ hw)
      · exact hl entry hm
  have hget : ∀ c w, (x.answer id a).callers.get? c = some w →
      c ≠ id ∧ e.callers.get? c = some w := fun c w hw => by
    rw [get?_callers_answer, hc] at hw
    split at hw
    · cases hw
    · exact ⟨‹_›, hw⟩
  refine h.carry (List.Subset.refl _) (Nat.le_of_eq hf'.symm) hr' (hf'.symm ▸ hnew)
    (fun c w hw => .inl (hget c w hw).2) (fun c w hw _ => ?_) ?_ (by rwa [dispatcher_answer]) ?_
  · by_cases hid : c = id
    · subst hid
      refine .inr (.inr ⟨a, ?_⟩)
      rw [record_answer_of_waits (hc ▸ hw)]
      exact List.mem_cons_self
    · rw [get?_callers_answer, if_neg hid, hc]
      exact .inl hw
  · rw [dispatcher_answer]
    exact hk
  · rw [dispatcher_answer]
    exact fun command w hw => hkeep command (hget _ w hw).1

theorem answer (h : e.Attends gone) (id : CallerId) (a : Answer) : (e.answer id a).Attends gone :=
  h.reply (l := []) a rfl rfl rfl (by simp) (fun _ hk => hk) rfl fun _ _ hk => hk

/-- A new caller, or one that takes its operation back, comes to wait for something else. -/
theorem await (h : e.Attends gone) {x : Engine} {id : CallerId} {w : Wait} (hf : e.fresh ≤ x.fresh)
    (hc : x.callers = e.callers) (hr : x.record = e.record) (hd : x.dispatcher = e.dispatcher)
    (hlt : id < x.fresh) (hw : ¬w.IsForReply)
    (hid : id = e.fresh ∨ ∃ w', e.callers.get? id = some w' ∧ ¬w'.IsForReply) :
    (x.await id w).Attends gone := by
  have hget : ∀ c, (x.await id w).callers.get? c = if c = id then some w else e.callers.get? c :=
    fun c => by rw [← hc]; exact x.callers.get?_put id w c
  have hkeeps : (x.await id w).dispatcher = e.dispatcher := hd
  refine h.carry (l := []) (List.Subset.refl _) hf hr (by simp) (fun c w' hw' => ?_)
    (fun c w' hw' hreply => ?_) (by simp [hkeeps]) (by rw [hkeeps]) (by simp [hkeeps])
  · rw [hget] at hw'
    split at hw'
    · rename_i hcid
      cases hw'
      subst hcid
      exact .inr ⟨hlt, hw, hid⟩
    · exact .inl hw'
  · rw [hget, if_neg, hw']
    · exact .inl rfl
    · rintro rfl
      obtain hfresh | ⟨w'', hw'', hn⟩ := hid
      · exact absurd (h.waits_lt c w' hw') (hfresh ▸ Nat.lt_irrefl _)
      · rw [hw'] at hw''
        cases hw''
        exact hn hreply

theorem send (h : e.Attends gone) {w : Wait} {command : Command} (hc : command.caller = e.fresh)
    (hw : w.IsFor command) (hs : e.dispatcher.hasStopped = false) :
    (({ e with fresh := e.fresh + 1 }.await e.fresh w).send command).Attends gone := by
  have hr : (({ e with fresh := e.fresh + 1 }.await e.fresh w).send command).record =
      .enqueued command :: e.record := record_note _ _
  have hget : ∀ c, (({ e with fresh := e.fresh + 1 }.await e.fresh w).send
      command).callers.get? c = if c = e.fresh then some w else e.callers.get? c :=
    e.callers.get?_put e.fresh w
  constructor
  · intro c w' hw'
    rw [hget] at hw'
    split at hw'
    · rename_i hcid
      exact hcid ▸ Nat.lt_succ_self _
    · exact Nat.lt_succ_of_lt (h.waits_lt c w' hw')
  · intro command' hk
    rw [hget]
    obtain hk | ⟨hcaller, hfor⟩ := Dispatcher.keeps_of_enqueue hk
    · obtain ⟨hlt, hfor⟩ := h.keeps command' hk
      rw [if_neg (Nat.ne_of_lt hlt)]
      exact ⟨Nat.lt_succ_of_lt hlt, hfor⟩
    · rw [hcaller, hc, if_pos rfl]
      refine ⟨Nat.lt_succ_self _, fun w' hw' => ?_⟩
      cases hw'
      exact hfor w hw
  · intro _ c w' hw' hreply
    rw [hget] at hw'
    split at hw'
    · rename_i hcid
      exact ⟨command, hc.trans hcid.symm,
        Dispatcher.keeps_of_mem (List.mem_append_right _ List.mem_cons_self)⟩
    · obtain ⟨command', hcaller, hk⟩ := h.attended hs c w' hw' hreply
      exact ⟨command', hcaller, hk.enqueue command⟩
  · intro hstop
    exact absurd (hs.symm.trans hstop) (by simp)
  · intro command' hm
    rw [hr] at hm ⊢
    rw [hget]
    rcases List.mem_cons.1 hm with hm | hm
    · cases hm
      rw [hc, if_pos rfl]
      exact ⟨Nat.lt_succ_self _, fun w' hw' => Option.some.inj hw' ▸ hw, .inr (.inr ⟨w, rfl⟩)⟩
    · obtain ⟨hlt, hfor, hcase⟩ := h.sent command' hm
      rw [if_neg (Nat.ne_of_lt hlt)]
      exact ⟨Nat.lt_succ_of_lt hlt, hfor, hcase.imp_right
        (Or.imp_left (Exists.imp fun a ha => List.mem_cons_of_mem _ ha))⟩
  · intro c a hm
    rw [hr] at hm
    exact Nat.lt_succ_of_lt (h.answered_lt c a (by simpa using hm))

theorem settle (h : e.Attends gone) (task : Task) (result : Except Error Unit) :
    (e.settle task result).Attends gone := by
  obtain ⟨-, hs⟩ | ⟨id, op, finish, -, hw, ⟨next, cause, -, hs⟩ | ⟨outcome, hs⟩⟩ :=
    settle_cases e task result
  · rw [hs]
    exact h
  · rw [hs]
    exact h.await (Nat.le_refl _) rfl rfl rfl (h.waits_lt id _ hw) (fun hf => hf)
      (.inr ⟨_, hw, fun hf => hf⟩)
  · rw [hs]
    exact h.answer id _

theorem book (h : e.Attends gone) (task : Task) (p : Registry × Registry.Progress) :
    (e.book task p).Attends gone := by
  obtain ⟨r, progress⟩ := p
  cases progress with
  | ask call pause =>
    exact h.append (l := [.asked (.matchRule call)]) (Nat.le_refl _) (record_note _ _)
      (by simp [Entry.IsMinor]) rfl (fun _ => .rfl) rfl
  | done result =>
    have hreg : { e with registry := r }.Attends gone :=
      h.append (l := []) (Nat.le_refl _) rfl (by simp) rfl (fun _ => .rfl) rfl
    exact hreg.settle task result

theorem takeCommand (h : e.Attends gone) {r : Dispatcher × List Reply}
    (hr : e.dispatcher.takeCommand? = some r) : (e.dispatch r).noteCall.Attends gone := by
  obtain ⟨hs, ⟨c, request, rest, hc, he⟩ | ⟨c, rest, hc, he⟩⟩ := takeCommand_turn hr
  · rw [he]
    refine h.append (l := [.asked (.job c request)]) (Nat.le_refl _) (record_note _ _)
      (by simp [Entry.IsMinor]) rfl (fun command => ?_)
      (by simp only [Dispatcher.hasStopped, hs, note])
    cases command with
    | submit c' request' =>
      simp only [note, Dispatcher.Keeps, Dispatcher.Tracks, hc, hs, Stage.call?, List.mem_cons,
        Command.submit.injEq, Option.some.injEq, Prod.mk.injEq]
      grind
    | count c' => simp [note, Dispatcher.Keeps, hc]
  · rw [he]
    refine h.reply (l := []) _ rfl rfl rfl (by simp) (fun command hk => ?_) rfl
      fun command hne hk => ?_
    · cases command with
      | submit c' request =>
        refine hk.imp_left (Exists.imp fun request hm => ?_)
        exact hc ▸ List.mem_cons_of_mem _ hm
      | count c' =>
        exact (hc ▸ List.mem_cons_of_mem _ hk : Command.count c' ∈ e.dispatcher.commands)
    · cases command with
      | submit c' request =>
        refine hk.imp_left (Exists.imp fun request hm => ?_)
        rw [hc] at hm
        exact (List.mem_cons.1 hm).resolve_left (by simp)
      | count c' =>
        have hm : Command.count c' ∈ e.dispatcher.commands := hk
        rw [hc] at hm
        exact (List.mem_cons.1 hm).resolve_left fun hm => hne (Command.count.inj hm)

theorem callReturn (h : e.Attends gone) {c : CallerId} {request : JobRequest}
    {result : Except Error String} {r : Dispatcher × List Reply}
    (hs : e.dispatcher.stage = .calling c request) (hr : e.dispatcher.called? result = some r) :
    ((e.note (.jobReturned c result)).dispatch r).Attends gone := by
  have hput := Dispatcher.keeps_expect hs
  have hrun (pending : Table String CallerId) : { e.dispatcher with
      stage := .idle, pending := pending }.hasStopped = e.dispatcher.hasStopped := by
    simp only [Dispatcher.hasStopped, hs]
  obtain ⟨err, rfl, he⟩ | ⟨path, rfl, ⟨hp, he⟩ | ⟨older, hp, he⟩⟩ := callReturn_turn hs hr
  · rw [he]
    refine h.reply (l := [.jobReturned c (.error err)]) _ rfl rfl (record_note _ _)
      (by simp [Entry.IsMinor]) (fun command hk => ?_) (hrun _) fun command hne hk => ?_
    · cases command with
      | submit c' request' =>
        obtain hq | ⟨_, hcall⟩ | hp := hk
        · exact .inl hq
        · cases hcall
        · exact .inr (.inr hp)
      | count c' => exact hk
    · cases command with
      | submit c' request' =>
        obtain hq | ⟨_, hcall⟩ | hp := hk
        · exact .inl hq
        · rw [hs] at hcall
          cases hcall
          exact absurd rfl hne
        · exact .inr (.inr hp)
      | count c' => exact hk
  · rw [he]
    refine h.append (l := [.jobReturned c (.ok path)]) (Nat.le_refl _) (record_note _ _)
      (by simp [Entry.IsMinor]) rfl
      (fun command => ⟨(hput path command).1, (hput path command).2 ?_⟩) (hrun _)
    simp [hp]
  · rw [he]
    refine h.reply (l := [.jobReturned c (.ok path)]) _ rfl rfl (record_note _ _)
      (by simp [Entry.IsMinor]) (fun command => (hput path command).1) (hrun _)
      fun command hne => (hput path command).2 ?_
    rw [hp]
    exact fun hc => hne (Option.some.inj hc).symm

theorem takeSignal (h : e.Attends gone) {item : Except Error Signal}
    {rest : List (Except Error Signal)} {r : Dispatcher × List Reply}
    (hi : e.dispatcher.signals = item :: rest) (hr : e.dispatcher.takeSignal? = some r) :
    ((e.note (.tookSignal item)).dispatch r).Attends gone := by
  obtain ⟨hs, ⟨path, output, c, -, hp, he⟩ | ⟨stage, hstage, -, he⟩⟩ := takeSignal_turn hi hr
  · rw [he]
    exact h.reply (l := [.tookSignal item]) _ rfl rfl (record_note _ _) (by simp [Entry.IsMinor])
      (fun command => (Dispatcher.keeps_resolve hp command).1) rfl
      fun command => (Dispatcher.keeps_resolve hp command).2
  · rw [he]
    refine h.append (l := [.tookSignal item]) (Nat.le_refl _) (record_note _ _)
      (by simp [Entry.IsMinor]) rfl (Dispatcher.keeps_congr rfl ?_ rfl) ?_
    · rw [hs]
      obtain rfl | ⟨parcel, rfl⟩ := hstage <;> rfl
    · obtain rfl | ⟨parcel, rfl⟩ := hstage <;> simp only [Dispatcher.hasStopped, hs, note]

theorem answered_of_answerAll {x : Engine} {c : CallerId} {w : Wait} {a : Answer}
    {replies : List Reply} (hw : x.callers.get? c = some w) (hm : (c, a) ∈ replies)
    (ha : ∀ reply ∈ replies, reply.1 = c → reply.2 = a) :
    Entry.answered c a ∈ (x.answerAll replies).record := by
  have hcase : (x.answerAll replies).callers.get? c = some w ∨
      Entry.answered c a ∈ (x.answerAll replies).record := by
    apply answerAll_induct
      (I := fun y => y.callers.get? c = some w ∨ Entry.answered c a ∈ y.record) (.inl hw)
    rintro y reply hreply (hy | hy)
    · by_cases hc : c = reply.1
      · subst hc
        rw [record_answer_of_waits hy, ha reply hreply rfl]
        exact .inr List.mem_cons_self
      · rw [get?_callers_answer, if_neg hc]
        exact .inl hy
    · exact .inr (record_answer_subset y _ _ hy)
  refine hcase.resolve_left fun hy => ?_
  rw [get?_callers_answerAll, if_pos (List.mem_map.2 ⟨_, hm, rfl⟩)] at hy
  cases hy

/-- Stopping turns away everybody who waits for the dispatcher, each in the way of its command. -/
theorem answered_of_stop (h : e.Attends gone) (hs : e.dispatcher.stage = .idle)
    {command : Command} {w : Wait} (hw : e.callers.get? command.caller = some w)
    (hfor : w.IsFor command) :
    Entry.answered command.caller command.refusal.2 ∈
      ((e.note .stopped).dispatch e.dispatcher.stop).record := by
  have hrun : e.dispatcher.hasStopped = false := by simp only [Dispatcher.hasStopped, hs]
  obtain ⟨kept, hcaller, hk⟩ := h.attended hrun _ w hw hfor.isForReply
  have hsame {other : Command} (hother : e.dispatcher.Keeps other)
      (hc : other.caller = command.caller) : other.refusal = command.refusal :=
    hfor.refusal_eq ((h.keeps other hother).2 w (hc ▸ hw)) hc
  have hreply : (command.caller, command.refusal.2) = kept.refusal := by
    rw [hsame hk hcaller, ← Command.fst_refusal command]
  refine answered_of_answerAll (w := w) hw ((Dispatcher.mem_stop_iff hs).2 ⟨kept, hk, hreply⟩) ?_
  intro reply hm hc
  obtain ⟨other, hother, rfl⟩ := (Dispatcher.mem_stop_iff hs).1 hm
  rw [Command.fst_refusal] at hc
  rw [hsame hother hc]

theorem stop (h : e.Attends gone) (hs : e.dispatcher.stage = .idle) :
    ((e.note .stopped).dispatch e.dispatcher.stop).Attends gone := by
  have hrun : e.dispatcher.hasStopped = false := by simp only [Dispatcher.hasStopped, hs]
  let e' := (e.note .stopped).dispatch e.dispatcher.stop
  have hd : e'.dispatcher = e.dispatcher.stop.1 := dispatcher_dispatch _ _
  have hf : e'.fresh = e.fresh := fresh_answerAll _ _
  have hget : ∀ c w, e'.callers.get? c = some w →
      c ∉ e.dispatcher.stop.2.map Prod.fst ∧ e.callers.get? c = some w := fun c w hw => by
    have hw : (Engine.answerAll _ e.dispatcher.stop.2).callers.get? c = some w := hw
    rw [get?_callers_answerAll] at hw
    split at hw
    · cases hw
    · exact ⟨‹_›, hw⟩
  obtain ⟨answers, hr, ha⟩ := record_answerAll
    { e.note .stopped with dispatcher := e.dispatcher.stop.1 } e.dispatcher.stop.2
  have hr : e'.record = answers ++ .stopped :: e.record :=
    hr.trans (congrArg (answers ++ ·) (record_note _ _))
  constructor
  · exact fun c w hw => hf ▸ h.waits_lt c w (hget c w hw).2
  · intro command hk
    rw [hd] at hk
    cases command with
    | submit c request => obtain ⟨_, hm⟩ | ⟨_, hc⟩ | ⟨path, hp⟩ := hk <;> contradiction
    | count c => cases hk
  · intro hrun'
    rw [hd] at hrun'
    cases hrun'
  · intro _ c w hw hreply
    obtain ⟨hnot, hold⟩ := hget c w hw
    obtain ⟨command, rfl, hk⟩ := h.attended hrun c w hold hreply
    exact hnot (List.mem_map.2
      ⟨_, (Dispatcher.mem_stop_iff hs).2 ⟨command, hk, rfl⟩, command.fst_refusal⟩)
  · intro command hm
    rw [hr] at hm
    have hm : Entry.enqueued command ∈ e.record := by
      rcases List.mem_append.1 hm with hm | hm
      · obtain ⟨reply, -, he, -⟩ := ha _ hm
        cases he
      · simpa using hm
    obtain ⟨hlt, hfor, hcase⟩ := h.sent command hm
    rw [hf]
    refine ⟨hlt, fun w hw => hfor w (hget _ w hw).2, hcase.imp_right ?_⟩
    rintro (⟨a, ha⟩ | ⟨w, hw⟩)
    · exact .inl ⟨a, hr ▸ List.mem_append_right _ (List.mem_cons_of_mem _ ha)⟩
    · exact .inl ⟨_, h.answered_of_stop hs hw (hfor w hw)⟩
  · intro c a hm
    rw [hr] at hm
    rw [hf]
    rcases List.mem_append.1 hm with hm | hm
    · obtain ⟨reply, -, he, hw⟩ := ha _ hm
      cases he
      obtain ⟨w, hw⟩ := Option.isSome_iff_exists.1 hw
      exact h.waits_lt _ w hw
    · exact h.answered_lt c a (by simpa using hm)

theorem move (h : e.Attends gone) (hm : Move e e') : e'.Attends gone := by
  cases hm with
  | rest => exact h
  | number => exact h.append (l := []) (Nat.le_succ _) rfl (by simp) rfl (fun _ => .rfl) rfl
  | refuse ha hd =>
    exact h.append (l := [_]) (Nat.le_succ _) (record_note _ _)
      (by simp [Entry.IsMinor, note]) rfl (fun _ => .rfl) rfl
  | @enrol w hw =>
    refine h.await (Nat.le_succ _) rfl rfl rfl (Nat.lt_succ_self _) (fun hf => ?_) (.inl rfl)
    cases w <;> first | exact hw | exact hf
  | submit hs hl => exact h.send rfl trivial hs
  | count hs => exact h.send rfl trivial hs
  | serve hw hk ha => exact h.answer _ _
  | expire hw => exact h.answer _ _
  | operate hh hi => exact h.book _ _
  | @resume holder answer hh =>
    have hn : ({ e with holder := none }.note (.matchReturned holder.call answer)).Attends gone :=
      h.append (l := [.matchReturned holder.call answer]) (Nat.le_refl _) (record_note _ _)
        (by simp [Entry.IsMinor]) rfl (fun _ => .rfl) rfl
    exact hn.book _ _
  | arrive item =>
    obtain ⟨signals, hd⟩ := e.dispatcher.receive_eq item
    rw [hd]
    exact h.append (l := [.arrived item]) (Nat.le_refl _) (record_note _ _)
      (by simp [Entry.IsMinor]) rfl (Dispatcher.keeps_congr rfl rfl rfl) rfl
  | endSignals =>
    exact h.append (l := []) (Nat.le_refl _) rfl (by simp) rfl
      (Dispatcher.keeps_congr rfl rfl rfl) rfl
  | takeCommand hr => exact h.takeCommand hr
  | callReturn hs hr => exact h.callReturn hs hr
  | takeSignal hi hr => exact h.takeSignal hi hr
  | stop hs => exact h.stop (Dispatcher.stage_of_mayStop hs)

theorem vanish (h : e.Attends gone) (c : CallerId) :
    { e with callers := e.callers.erase c }.Attends (gone ++ [c]) := by
  have hget : ∀ c', (e.callers.erase c).get? c' = _ := e.callers.get?_erase c
  refine h.carry (l := []) (List.subset_append_left _ _) (Nat.le_refl _) rfl (by simp)
    (fun c' w hw => .inl ?_) (fun c' w hw _ => ?_) (fun _ => id) rfl fun _ _ _ => id
  · have hw : (e.callers.erase c).get? c' = some w := hw
    rw [hget] at hw
    split at hw
    · cases hw
    · exact hw
  · by_cases hc : c' = c
    · exact .inr (.inl (hc ▸ List.mem_append_right _ List.mem_cons_self))
    · exact .inl ((hget c').trans ((if_neg hc).trans hw))

end Attends

theorem Visited.attends {gone : List CallerId} {e : Engine} (h : Visited gone e) :
    e.Attends gone := by
  induction h with
  | start capacity timer => exact .start capacity timer
  | alike _ ha ih => exact ih.alike ha
  | move _ hm ih => exact ih.move hm
  | vanish _ hw hf ih => exact ih.vanish _

end Engine

end UnitControl
