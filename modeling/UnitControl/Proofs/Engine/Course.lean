import UnitControl.Proofs.Engine.Assignments
import UnitControl.Proofs.Engine.Newcomers
import UnitControl.Proofs.Engine.Routine

/-!
# The course of an operation

A step either leaves the registry and all operations as they are, or a task that has the registry
goes on with its operation and comes to the next call on the bus or to the end. The end is noted,
and next to it the answer to a caller that waits for nothing else.
-/

namespace UnitControl

namespace Entry

/-- The operation of whose end an entry tells, with its result. -/
def operated? : Entry → Option (Registry.Operation × Except Error Unit)
  | operated op result => some (op, result)
  | _ => none

/-- The entry tells neither of the end of an operation nor of an answer. -/
def isSilent : Entry → Bool
  | operated .. | answered .. => false
  | _ => true

theorem operated?_of_isSilent {entry : Entry} (h : entry.isSilent = true) :
    entry.operated? = none := by
  cases entry with
  | operated op result => cases h
  | _ => rfl

end Entry

namespace Engine

open Registry (Operation Progress)

variable {e e' e'' : Engine} {event : Event} {id : CallerId} {task : Task} {op : Operation}
  {p : Registry × Progress}

abbrev EndsNone : Engine → Engine → Prop := Notes fun entry => entry.operated? = none

theorem EndsNone.keptByRoutine : KeptByRoutine EndsNone :=
  Notes.keptByRoutine fun entry h => by
    cases entry with
    | operated op result => cases h
    | _ => rfl

/-- The end of an operation is noted, and right after it the answer to a caller that waits for
nothing else. -/
def Announces (e : Engine) (task : Task) (op : Operation) (result : Except Error Unit)
    (e' : Engine) : Prop :=
  ∃ later earlier, e'.journal = later ++ .operated op result :: (earlier ++ e.journal) ∧
    (∀ entry ∈ later, entry.operated? = none) ∧ (∀ entry ∈ earlier, entry.isSilent = true) ∧
    ∀ id, task = .caller id → e.awaited? id = some (op, .answer) → op.newcomer? = none →
      later = [.answered id (.done result)]

/-- A task has come to `p` with its operation. -/
structure Performs (e : Engine) (task : Task) (op : Operation) (p : Registry × Progress)
    (e' : Engine) : Prop where
  registry : e'.registry = p.1
  others : ∀ c, task ≠ .caller c → e'.callers.get? c = e.callers.get? c
  ask : ∀ call pause, p.2 = .ask call pause →
    e'.holder = some ⟨task, call, pause⟩ ∧ e'.Intends task op ∧ EndsNone e e'
  done : ∀ result, p.2 = .done result → e'.holder = none ∧ e.Announces task op result e'

theorem announces_finish (hi : e.Intends task op) (result : Except Error Unit) :
    e.Announces task op result (e.finish task result) := by
  cases task with
  | caller id =>
    obtain ⟨finish, hw⟩ := hi
    have hconclude := EndsNone.keptByRoutine.conclusions.conclude
      (e.note (.operated op result)) id op finish result
    obtain ⟨later, hj, hlater⟩ := hconclude
    have hfinish : e.finish (.caller id) result =
        (e.note (.operated op result)).conclude id op finish result := by
      simp only [Engine.finish, hw]
    refine ⟨later, [], hfinish ▸ hj, hlater, by simp, fun c hc ha hnew => ?_⟩
    cases hc
    cases (awaited?_eq_some_iff.2 hw).symm.trans ha
    have hanswer : (e.note (.operated op result)).conclude id op .answer result =
        (e.note (.operated op result)).answer id (.done result) := by
      cases result <;> simp only [conclude, hnew, abandon]
    have hcontains : (e.note (.operated op result)).callers.contains id = true :=
      Table.contains_of_get? hw
    rw [hanswer, Engine.answer, if_pos hcontains] at hj
    have hj : [_] ++ _ = later ++ _ := hj
    exact (List.append_cancel_right hj).symm
  | watcher feed =>
    obtain ⟨o, ho, rfl⟩ := hi
    refine ⟨[], [], ?_, by simp, by simp, fun c hc => by cases hc⟩
    simp only [Engine.finish, ho]
    rfl
  | dispatcher => exact hi.elim
  | poller id => exact hi.elim

theorem performs_proceed (hh : e.holder = none) (hi : e.Intends task op)
    (p : Registry × Progress) : e.Performs task op p (e.proceed task p) := by
  have halike := alike_proceed (e := e) task p
  obtain ⟨r, progress⟩ := p
  cases progress with
  | ask call pause =>
    refine ⟨rfl, fun _ _ => rfl, fun call' pause' h => ?_, fun result h => by cases h⟩
    cases h
    refine ⟨rfl, ?_, [.asked (.matchRule call)], rfl, by simp [Entry.operated?]⟩
    cases task <;> exact hi
  | done result =>
    refine ⟨registry_proceed _ _ _, fun c hc => ?_, fun call pause h => (by cases h),
      fun result' h => ?_⟩
    · rw [halike.callers, book_done]
      exact get?_callers_settle (e := { e with registry := r }) hc result
    · cases h
      refine ⟨halike.holder.trans ((holder_settle _ _ _).trans hh), ?_⟩
      have hi' : { e with registry := r }.Intends task op := by cases task <;> exact hi
      exact announces_finish hi' result

namespace Performs

theorem journal (h : e.Performs task op p e') : e.journal <:+ e'.journal := by
  cases hp : p.2 with
  | ask call pause =>
    obtain ⟨-, -, added, hj, -⟩ := h.ask call pause hp
    exact hj ▸ List.suffix_append _ _
  | done result =>
    obtain ⟨-, later, earlier, hj, -⟩ := h.done result hp
    rw [hj, ← List.cons_append, ← List.append_assoc]
    exact List.suffix_append _ _

theorem before (h : e'.Performs task op p e'') (silent : List Entry)
    (hc : e'.callers = e.callers) (hj : e'.journal = silent ++ e.journal)
    (hs : ∀ entry ∈ silent, entry.isSilent = true) : e.Performs task op p e'' where
  registry := h.registry
  others c hne := hc ▸ h.others c hne
  ask call pause hp := by
    obtain ⟨hh, hi, added, hadded, hnone⟩ := h.ask call pause hp
    refine ⟨hh, hi, added ++ silent, by rw [hadded, hj, List.append_assoc], fun entry hm => ?_⟩
    obtain hm | hm := List.mem_append.1 hm
    · exact hnone entry hm
    · exact Entry.operated?_of_isSilent (hs entry hm)
  done result hp := by
    obtain ⟨hh, later, earlier, hjournal, hlater, hearlier, hanswer⟩ := h.done result hp
    refine ⟨hh, later, earlier ++ silent, by rw [hjournal, hj, List.append_assoc], hlater,
      fun entry hm => (List.mem_append.1 hm).elim (hearlier entry) (hs entry), fun id ht ha => ?_⟩
    exact hanswer id ht ((awaited?_of_callers hc).trans ha)

theorem startle (h : e.Performs task op p e') :
    e.Performs task op p { e' with dispatcher := e'.dispatcher.startle } where
  registry := h.registry
  others := h.others
  ask call pause hp := by
    obtain ⟨hh, hi, hn⟩ := h.ask call pause hp
    refine ⟨hh, ?_, hn⟩
    cases task <;> exact hi
  done := h.done

end Performs

theorem performs_operate (hh : e.holder = none) (hi : e.Intends task op) :
    e.Performs task op (e.registry.begin op) (e.operate task op) := by
  unfold operate
  cases hc : e.registry.closes op with
  | none => exact performs_proceed hh hi _
  | some feed =>
    have h := performs_proceed (e := e.closeFeed feed) hh (hi.closeFeed feed) (e.registry.begin op)
    exact h.before [.closed feed] rfl rfl (by simp [Entry.isSilent])

/-- In this event a task begins with its operation, or goes on with it, and comes to `p`. -/
def Turns (e : Engine) (event : Event) (task : Task) (op : Operation) (p : Registry × Progress) :
    Prop :=
  event = .grant task ∧ e.holder = none ∧ p = e.registry.begin op ∨
    ∃ holder answer, event = .matchReturned answer ∧ e.holder = some holder ∧
      holder.task = task ∧ p = e.registry.resume answer holder.pause

/-- The registry and all operations are left as they are. -/
structure Undisturbed (e e' : Engine) : Prop extends Retains e e' where
  ends : EndsNone e e'

theorem retains_enter (h : ∀ op, ¬e.Intends task op) : Retains e (e.enter task) := by
  cases task with
  | caller id =>
    simp only [enter]
    split
    · exact .answerOther (fun op finish hw => h op ⟨finish, hw⟩) _
    · rename_i op finish hw
      exact absurd ⟨finish, hw⟩ (h op)
    · exact .of_eq rfl rfl rfl rfl
  | watcher feed =>
    simp only [enter]
    split
    · rename_i o ho
      exact absurd ⟨o, ho, rfl⟩ (h o.ending)
    · exact .of_eq rfl rfl rfl rfl
  | dispatcher =>
    simp only [enter]
    split
    · rename_i parcel _
      let stage := Stage.sending parcel (e.registry.targets parcel)
      let x : Engine := { e with dispatcher := { e.dispatcher with stage } }
      have hx : Retains e x := .of_eq rfl rfl rfl rfl
      exact hx.trans (.note rfl x)
    · exact .of_eq rfl rfl rfl rfl
  | poller id =>
    simp only [enter]
    split
    · split <;> exact .of_eq rfl rfl rfl rfl
    · exact .of_eq rfl rfl rfl rfl

theorem endsNone_of_reaction (hr : e.Reaction event e')
    (hm : ∀ answer, event ≠ .matchReturned answer) (hg : ∀ task, event ≠ .grant task) :
    EndsNone e e' := by
  have hkept := EndsNone.keptByRoutine
  have hask (id : PollerId) (x : Engine) : EndsNone x (x.note (.asked (.list (.poller id)))) :=
    ⟨[_], rfl, by simp [Entry.operated?]⟩
  cases hevent : event.isRoutine with
  | true => exact hkept.reaction hr hevent
  | false =>
    cases hr with
    | @call call hp =>
      cases call with
      | close s => exact ⟨[], rfl, by simp⟩
      | _ => cases hevent
    | poll hp | openSet hp | dropSet s | dropHandle | tick passed shown =>
      exact ⟨[], rfl, by simp⟩
    | matchReturned answer hh => exact absurd rfl (hm answer)
    | @polled id result e' hp => exact hkept.trans (hkept.note e rfl) (hkept.stepPoller hp (hask _))
    | grant hh hq => exact absurd rfl (hg _)
    | unblockPoller hp | wakePoller hp => exact hkept.stepPoller hp (hask _)
    | _ => cases hevent

theorem turns_of_step (ho : e.Orderly)
    (hheld : ∀ holder, e.holder = some holder → ∃ op, e.Intends holder.task op)
    (hs : e.step event = some e') :
    Undisturbed e e' ∨ ∃ task op p, e.Intends task op ∧ e.Turns event task op p ∧
      e.Performs task op p e' := by
  refine of_step hs (fun x hr => ?_) fun x hx => hx.imp (fun h => ?_) fun h => ?_
  · by_cases hm : ∃ answer, event = .matchReturned answer
    · obtain ⟨answer, rfl⟩ := hm
      cases hr with
      | @matchReturned holder answer hh =>
        obtain ⟨op, hi⟩ := hheld holder hh
        let y := { e with holder := none }.note (.matchReturned holder.call answer)
        have hiy : y.Intends holder.task op := by
          generalize holder.task = task at hi
          cases task <;> exact hi
        have hp := performs_proceed (e := y) rfl hiy (e.registry.resume answer holder.pause)
        exact .inr ⟨holder.task, op, _, hi, .inr ⟨holder, answer, rfl, hh, rfl, rfl⟩,
          hp.before [_] rfl rfl (by simp [Entry.isSilent])⟩
    · by_cases hg : ∃ task, event = .grant task
      · obtain ⟨task, rfl⟩ := hg
        cases hr with
        | grant hh hq =>
          let y := { e with queue := e.queue.erase task }
          have hiy (op : Operation) : y.Intends task op ↔ e.Intends task op := by
            cases task <;> exact Iff.rfl
          by_cases hi : ∃ op, e.Intends task op
          · obtain ⟨op, hi⟩ := hi
            refine .inr ⟨task, op, _, hi, .inl ⟨rfl, hh, rfl⟩, ?_⟩
            rw [enter_of_intends ((hiy op).2 hi)]
            have hp := performs_operate (e := y) hh ((hiy op).2 hi)
            exact hp.before [] rfl rfl (by simp)
          · have hn (op : Operation) : ¬y.Intends task op := fun h => hi ⟨op, (hiy op).1 h⟩
            have hy : Retains e y := .of_eq rfl rfl rfl rfl
            have hj : EndsNone e y := EndsNone.keptByRoutine.of_eq rfl rfl
            refine .inl ⟨hy.trans (retains_enter hn), ?_⟩
            exact EndsNone.keptByRoutine.trans hj
              (EndsNone.keptByRoutine.enter y task fun op h => absurd h (hn op))
      · have hm' (answer : Except Error Unit) : event ≠ .matchReturned answer :=
          fun h => hm ⟨answer, h⟩
        have hg' (task : Task) : event ≠ .grant task := fun h => hg ⟨task, h⟩
        exact .inl ⟨retains_of_reaction ho hr hm' hg', endsNone_of_reaction hr hm' hg'⟩
  · exact ⟨h.toRetains.trans (.of_eq rfl rfl rfl rfl), h.ends⟩
  · obtain ⟨task, op, p, hi, ht, hp⟩ := h
    exact ⟨task, op, p, hi, ht, hp.startle⟩

end Engine

end UnitControl
