import UnitControl.Engine.Step
import UnitControl.Proofs.Name

/-!
# Names in calls

Every call that names a unit goes by the canonical name: texts of which the same becomes make the
engine do the same.
-/

namespace UnitControl

inductive UnitCall
  | add (s : SetId)
  | remove (s : SetId)
  | contains (s : SetId)
  | references
  | job (kind : JobKind) (mode : StartMode)
  | subscribe (values : Nat) (refusal : Option String)

def UnitCall.on (unit : String) : UnitCall → Call
  | add s => .add s unit
  | remove s => .remove s unit
  | contains s => .contains s unit
  | references => .references unit
  | job kind mode => .job kind unit mode
  | subscribe values refusal => .subscribe unit values refusal

namespace Engine

theorem call_on_congr {x y : String} (h : Name.canonical x = Name.canonical y) (e : Engine)
    (id : CallerId) (c : UnitCall) : e.call id (c.on x) = e.call id (c.on y) := by
  cases c with
  | add s | remove s => simp only [UnitCall.on, call, operateOn, h]
  | contains s | references | job kind mode | subscribe values refusal =>
    simp only [UnitCall.on, call, h]

theorem step_on_congr {x y : String} (h : Name.canonical x = Name.canonical y) (e : Engine)
    (c : UnitCall) : e.step (.call (c.on x)) = e.step (.call (c.on y)) := by
  have hpermits : e.permits (c.on x) = e.permits (c.on y) := by cases c <;> rfl
  simp only [step, react, hpermits, call_on_congr h]

/-- A text has a canonical name exactly if it is free of control characters and can stand for a
unit when it is trimmed. The canonical name is the trimmed text, with the suffix of a service if
there is no dot in it; it is canonical itself, and no call tells the two apart. Blanks around the
text, other than control characters, do not change what becomes of it. -/
theorem canonical_normalizes (x : String) :
    Blank.Trims x.toList (Blank.trim x.toList) ∧
    ((∃ y, Name.canonical x = .ok y) ↔
      (∀ c ∈ x.toList, isControl c = false) ∧ Name.IsPlain (Blank.trim x.toList)) ∧
    (∀ y, Name.canonical x = .ok y →
      y.toList = (if '.' ∈ Blank.trim x.toList then Blank.trim x.toList
        else Blank.trim x.toList ++ ".service".toList) ∧
      Name.IsCanonical y.toList ∧ Name.canonical y = .ok y ∧
      ∀ (e : Engine) (c : UnitCall), e.step (.call (c.on x)) = e.step (.call (c.on y))) ∧
    ∀ before after : String,
      (∀ c ∈ before.toList ++ after.toList, isBlank c = true ∧ isControl c = false) →
      Name.canonical (before ++ x ++ after) = Name.canonical x := by
  refine ⟨Blank.trims_trim _, Name.exists_canonical_iff x, fun y hy => ?_,
    fun before after h => Name.canonical_surround x h⟩
  have hchars := (Name.canonical_eq_ok_iff x y).1 hy
  have hcanonical := Name.isCanonical_of_canonicalChars hchars
  have hself := (Name.canonical_eq_ok_iff y y).2 (Name.canonicalChars_of_isCanonical hcanonical)
  exact ⟨((Name.canonicalChars_eq_ok_iff _ _).1 hchars).2.2, hcanonical, hself,
    fun e c => step_on_congr (hy.trans hself.symm) e c⟩

end Engine

end UnitControl
