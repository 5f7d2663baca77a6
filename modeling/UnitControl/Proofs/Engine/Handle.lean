import UnitControl.Proofs.Engine.Act
import UnitControl.Proofs.Engine.Routine

/-!
# The handle and the clock

Whoever holds the handle on the engine can let it go, and nothing brings it back; neither does time
go back. While the handle is held the dispatcher can always be reached.
-/

namespace UnitControl

/-- The events in which handles come or go, or time goes on. -/
def Event.isOfBearings : Event → Bool
  | .call (.close _) | .openSet | .dropSet _ | .dropHandle | .tick .. => true
  | _ => false

namespace Engine

variable {e e' e'' : Engine}

def SameBearings (e e' : Engine) : Prop := e'.bearings = e.bearings

theorem SameBearings.keptByRoutine : KeptByRoutine SameBearings where
  trans h h' := h'.trans h
  of_eq hb _ := hb
  note _ _ _ := rfl

theorem SameBearings.keptByOperations : KeptByOperations SameBearings :=
  keptByRoutine.operations fun _ _ _ => rfl

/-- The handle does not come back, time does not go back, and waits take what they took. -/
structure Onward (e e' : Engine) : Prop where
  handle : e'.handle = true → e.handle = true
  now : e.clock.now ≤ e'.clock.now
  timer : e'.clock.timer = e.clock.timer

namespace Onward

theorem refl (e : Engine) : Onward e e := ⟨id, Nat.le_refl _, rfl⟩

theorem trans (h : Onward e e') (h' : Onward e' e'') : Onward e e'' :=
  ⟨h.handle ∘ h'.handle, Nat.le_trans h.now h'.now, h'.timer.trans h.timer⟩

theorem of_sameBearings (h : SameBearings e e') : Onward e e' where
  handle hh := (congrArg Prod.fst h).symm.trans hh
  now := Nat.le_of_eq (congrArg (fun b => b.2.2.now) h).symm
  timer := congrArg (fun b => b.2.2.timer) h

end Onward

theorem sameBearings_of_reaction {event : Event} (h : e.Reaction event e')
    (hevent : event.isOfBearings = false) : SameBearings e e' := by
  have hkept := SameBearings.keptByRoutine
  cases hroutine : event.isRoutine with
  | true => exact hkept.reaction h hroutine
  | false =>
    cases h with
    | @call call h =>
      cases call with
      | close s => cases hevent
      | _ => cases hroutine
    | poll h => exact hkept.of_eq rfl rfl
    | matchReturned answer h => exact SameBearings.keptByOperations.proceed _ _ _
    | @polled id result e' h => exact hkept.stepPoller (e := e.note _) h fun _ => rfl
    | @grant task hh hq =>
      exact hkept.enter { e with queue := e.queue.erase task } task fun op _ =>
        SameBearings.keptByOperations.operate _ task op
    | unblockPoller h | wakePoller h => exact hkept.stepPoller h fun _ => rfl
    | openSet | dropSet | dropHandle | tick => cases hevent
    | _ => cases hroutine

theorem onward_of_reaction {event : Event} (h : e.Reaction event e') : Onward e e' := by
  cases hevent : event.isOfBearings with
  | false => exact .of_sameBearings (sameBearings_of_reaction h hevent)
  | true =>
    cases h with
    | @call call h =>
      cases call with
      | close s => exact ⟨id, Nat.le_refl _, rfl⟩
      | _ => cases hevent
    | openSet h | dropSet s => exact ⟨id, Nat.le_refl _, rfl⟩
    | dropHandle => exact ⟨fun hh => (by cases hh), Nat.le_refl _, rfl⟩
    | tick passed shown => exact ⟨id, Nat.le_add_right _ _, rfl⟩
    | _ => cases hevent

theorem onward_of_act {a : Act} (h : e.act a = some e') : Onward e e' := by
  obtain ⟨event, rfl, hs⟩ | ⟨c, w, rfl, hw, hf, -⟩ := act_cases h
  · exact of_step hs (fun _ hr => onward_of_reaction hr) fun _ hx => ⟨hx.handle, hx.now, hx.timer⟩
  · obtain ⟨x, hx, rfl⟩ := Option.map_eq_some_iff.1 h
    unfold vanish? at hx
    split at hx
    · cases hx
      exact .of_sameBearings (by split <;> rfl)
    · cases hx
      exact .of_sameBearings (by split <;> rfl)
    · cases hx

theorem onward_of_acts {l : List Act} (h : e.acts l = some e') : Onward e e' := by
  induction l generalizing e with
  | nil =>
    cases h
    exact .refl _
  | cons a rest ih =>
    obtain ⟨x, ha, h⟩ := Option.bind_eq_some_iff.1 h
    exact (onward_of_act ha).trans (ih h)

theorem reachable_of_handle (h : e.handle = true) : e.reachable = true := by
  simp [reachable, h]

end Engine

end UnitControl
