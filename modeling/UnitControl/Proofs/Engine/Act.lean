import Mathlib.Data.List.Induction
import UnitControl.Engine.Act
import UnitControl.Proofs.Engine.History
import UnitControl.Proofs.Engine.Waits

/-!
# Runs in which callers go away

A caller that goes away is all that an act may change besides what moves change. The record only
grows, and once the dispatcher has stopped it stays so and makes no job call any more.
-/

namespace UnitControl.Engine

variable {e e' : Engine} {a : Act} {l : List Act}

/-- The engines to which moves lead, and callers that go away. The callers that have gone are
told. -/
inductive Visited : List CallerId → Engine → Prop
  | start (capacity : Nat) (timer : Timer) : Visited [] (start capacity timer)
  | alike {gone : List CallerId} {e e' : Engine} (h : Visited gone e) (ha : Alike e e') :
      Visited gone e'
  | move {gone : List CallerId} {e e' : Engine} (h : Visited gone e) (hm : Move e e') :
      Visited gone e'
  | vanish {gone : List CallerId} {e : Engine} {c : CallerId} {w : Wait} (h : Visited gone e)
      (hw : e.callers.get? c = some w) (hf : w.IsForReply) :
      Visited (gone ++ [c]) { e with callers := e.callers.erase c }

theorem alike_startleIf (e : Engine) (b : Bool) :
    Alike e (if b then { e with dispatcher := e.dispatcher.startle } else e) := by
  cases b with
  | true => exact alike_setDispatcher (desk_startle _)
  | false => exact .refl e

theorem act_cases (h : e.act a = some e') :
    (∃ event, a = .event event ∧ e.step event = some e') ∨
      ∃ c w, a = .vanish c ∧ e.callers.get? c = some w ∧ w.IsForReply ∧
        Alike { e with callers := e.callers.erase c } e' := by
  cases a with
  | event event => exact .inl ⟨event, rfl, h⟩
  | vanish c =>
    obtain ⟨x, hx, rfl⟩ := Option.map_eq_some_iff.1 h
    unfold vanish? at hx
    split at hx
    · cases hx
      exact .inr ⟨c, .job _, rfl, ‹_›, trivial, alike_startleIf _ _⟩
    · cases hx
      exact .inr ⟨c, .pending, rfl, ‹_›, trivial, alike_startleIf _ _⟩
    · cases hx

theorem fresh_le_of_act (h : e.act a = some e') : e.fresh ≤ e'.fresh := by
  obtain ⟨event, rfl, hs⟩ | ⟨id, w, rfl, -, -, halike⟩ := act_cases h
  · exact fresh_le_of_step hs
  · exact Nat.le_of_eq halike.fresh.symm

theorem departed_concat_event (l : List Act) (event : Event) :
    departed (l ++ [.event event]) = departed l := by
  simp [departed, Act.gone?]

theorem departed_concat_vanish (l : List Act) (c : CallerId) :
    departed (l ++ [.vanish c]) = departed l ++ [c] := by
  simp [departed, Act.gone?]

theorem acts_concat : e.acts (l ++ [a]) = some e' ↔ ∃ x, e.acts l = some x ∧ x.act a = some e' := by
  simp only [acts_append, acts, Option.bind_eq_some_iff, Option.some.injEq, exists_eq_right]

theorem visited_of_acts {capacity : Nat} {timer : Timer}
    (h : (start capacity timer).acts l = some e) : Visited (departed l) e := by
  induction l using List.reverseRecOn generalizing e with
  | nil =>
    cases h
    exact .start capacity timer
  | append_singleton l a ih =>
    obtain ⟨x, hx, ha⟩ := acts_concat.1 h
    obtain ⟨event, rfl, hs⟩ | ⟨c, w, rfl, hw, hf, halike⟩ := act_cases ha
    · obtain ⟨e₁, e₂, h₁, hm, h₂⟩ := moves_of_step hs
      rw [departed_concat_event]
      exact (((ih hx).alike h₁).move hm).alike h₂
    · rw [departed_concat_vanish]
      exact ((ih hx).vanish hw hf).alike halike

/-- The entries are added to the record. A command among them has a new number, and once the
dispatcher has stopped there is no job call among them. -/
structure Adds (e e' : Engine) (l : List Entry) : Prop where
  record : e'.record = l ++ e.record
  newcomer : ∀ command, Entry.enqueued command ∈ l → command.caller = e.fresh
  halted : e.dispatcher.hasStopped = true →
    e'.dispatcher.hasStopped = true ∧ ∀ entry ∈ l, ¬entry.IsJobCall

namespace Adds

theorem of_quiet {l : List Entry} (hr : e'.record = l ++ e.record)
    (hs : e'.dispatcher.hasStopped = e.dispatcher.hasStopped)
    (hl : ∀ entry ∈ l, ¬entry.IsJobCall ∧ ∀ command, entry ≠ .enqueued command) :
    Adds e e' l where
  record := hr
  newcomer command hm := absurd rfl ((hl _ hm).2 command)
  halted h := ⟨hs.trans h, fun entry hm => (hl entry hm).1⟩

theorem of_running {l : List Entry} (hr : e'.record = l ++ e.record)
    (hs : e.dispatcher.hasStopped = false)
    (hl : ∀ command, Entry.enqueued command ∈ l → command.caller = e.fresh) : Adds e e' l where
  record := hr
  newcomer := hl
  halted h := absurd (hs.symm.trans h) (by simp)

theorem answer {id : CallerId} {w : Wait} (hw : e.callers.get? id = some w) (a : Answer) :
    Adds e (e.answer id a) [.answered id a] :=
  of_quiet (record_answer_of_waits hw a) (by rw [dispatcher_answer]) (by simp [Entry.IsJobCall])

theorem book (e : Engine) (task : Task) (p : Registry × Registry.Progress) :
    ∃ l, Adds e (e.book task p) l := by
  obtain ⟨l, hr, hl⟩ := record_book e task p
  refine ⟨l, of_quiet hr (by rw [dispatcher_book]) fun entry hm => ?_⟩
  obtain ⟨call, rfl⟩ | ⟨c, outcome, rfl⟩ := hl entry hm <;> simp [Entry.IsJobCall]

theorem dispatch (entry : Entry) (hm : entry.isMilestone = true)
    (hn : ∀ command, entry ≠ .enqueued command) (hs : e.dispatcher.hasStopped = false)
    (r : Dispatcher × List Reply) :
    ∃ answers, Adds e ((e.note entry).dispatch r) (answers ++ [entry]) ∧
      ∀ x ∈ answers, ∃ c a, x = .answered c a := by
  obtain ⟨answers, hr, ha⟩ := record_dispatch (e.note entry) r
  rw [record_note, if_pos hm] at hr
  refine ⟨answers, of_running (by simp [hr]) hs fun command hm => ?_, ha⟩
  rcases List.mem_append.1 hm with hm | hm
  · obtain ⟨c, a, he⟩ := ha _ hm
    cases he
  · exact absurd (List.mem_singleton.1 hm).symm (hn command)

theorem trans {x : Engine} {l l' : List Entry} (h : Adds e x l) (h' : Adds x e' l')
    (hf : x.fresh = e.fresh) : Adds e e' (l' ++ l) where
  record := by rw [h'.record, h.record, List.append_assoc]
  newcomer command hm := (List.mem_append.1 hm).elim
    (fun hm => (h'.newcomer command hm).trans hf) (h.newcomer command)
  halted hs := ⟨(h'.halted (h.halted hs).1).1, fun entry hm => (List.mem_append.1 hm).elim
    ((h'.halted (h.halted hs).1).2 entry) ((h.halted hs).2 entry)⟩

end Adds

theorem Move.adds (h : Move e e') : ∃ l, Adds e e' l := by
  have hrun {s : Stage} (hs : e.dispatcher.stage = s) (hn : s ≠ .stopped) :
      e.dispatcher.hasStopped = false :=
    Bool.eq_false_iff.2 fun hstop => hn (hs ▸ Dispatcher.stage_of_hasStopped hstop)
  cases h with
  | rest => exact ⟨[], .of_quiet rfl rfl (by simp)⟩
  | number => exact ⟨[], .of_quiet rfl rfl (by simp)⟩
  | refuse ha hd => exact ⟨[_], .of_quiet (record_note _ _) rfl (by simp [Entry.IsJobCall])⟩
  | enrol hw => exact ⟨[], .of_quiet rfl rfl (by simp)⟩
  | submit hs hl => exact ⟨[_], .of_running (record_note _ _) hs (by simp [Command.caller])⟩
  | count hs => exact ⟨[_], .of_running (record_note _ _) hs (by simp [Command.caller])⟩
  | serve hw hk ha => exact ⟨_, .answer hw _⟩
  | expire hw => exact ⟨_, .answer hw _⟩
  | operate hh hi => exact Adds.book e _ _
  | @resume holder answer hh =>
    let x := { e with holder := none }.note (.matchReturned holder.call answer)
    have hx : Adds e x [.matchReturned holder.call answer] :=
      .of_quiet (record_note _ _) rfl (by simp [Entry.IsJobCall])
    obtain ⟨l, hl⟩ := Adds.book x holder.task (e.registry.resume answer holder.pause)
    exact ⟨_, hx.trans hl rfl⟩
  | arrive item =>
    obtain ⟨signals, hd⟩ := e.dispatcher.receive_eq item
    rw [hd]
    exact ⟨[.arrived item], .of_quiet (record_note _ _) rfl (by simp [Entry.IsJobCall])⟩
  | endSignals => exact ⟨[], .of_quiet rfl rfl (by simp)⟩
  | takeCommand hr =>
    obtain ⟨hs, ⟨c, request, rest, -, he⟩ | ⟨c, rest, -, he⟩⟩ := takeCommand_turn hr
    · rw [he]
      exact ⟨[_], .of_running (record_note _ _) (hrun hs (by simp)) (by simp)⟩
    · rw [he]
      obtain ⟨l, hr, hl⟩ := record_answer_append
        { e with dispatcher := { e.dispatcher with commands := rest } } c _
      exact ⟨l, .of_running hr (hrun hs (by simp)) fun command hm => by cases hl _ hm⟩
  | @callReturn c request result r hs hr =>
    obtain ⟨answers, h, -⟩ :=
      Adds.dispatch (.jobReturned c result) rfl (by simp) (hrun hs (by simp)) r
    exact ⟨_, h⟩
  | @takeSignal item rest r hi hr =>
    obtain ⟨hs, -⟩ := Dispatcher.takeSignal_cases hi hr
    obtain ⟨answers, h, -⟩ := Adds.dispatch (.tookSignal item) rfl (by simp) (hrun hs (by simp)) r
    exact ⟨_, h⟩
  | stop hs =>
    obtain ⟨answers, h, -⟩ := Adds.dispatch .stopped rfl (by simp)
      (hrun (Dispatcher.stage_of_mayStop hs) (by simp)) e.dispatcher.stop
    exact ⟨_, h⟩

theorem adds_of_act (h : e.act a = some e') : ∃ l, Adds e e' l := by
  obtain ⟨event, -, hs⟩ | ⟨c, w, -, -, -, ha⟩ := act_cases h
  · obtain ⟨e₁, e₂, h₁, hm, h₂⟩ := moves_of_step hs
    obtain ⟨l, hr, hn, hl⟩ := hm.adds
    refine ⟨l, ?_, ?_, ?_⟩
    · rw [h₂.record, ← h₁.record, hr]
    · rwa [h₁.fresh] at hn
    · rwa [h₂.stopped, ← h₁.stopped]
  · exact ⟨[], .of_quiet ha.record ha.stopped (by simp)⟩

end UnitControl.Engine
