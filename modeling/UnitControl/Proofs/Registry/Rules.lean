import UnitControl.Proofs.Registry.Operation

/-!
# Match rules and references

An operation asks for a rule only for a unit without references, and asks to remove one only when it
has dropped the last reference. What the bus answers decides about the reference that is asked for,
never about one that is let go.
-/

namespace UnitControl.Registry

variable {r : Registry}

/-- The call for which an operation waits. -/
def Progress.call? : Progress → Option MatchCall
  | done _ => none
  | ask call _ => some call

/-- The units with a rule, if those had one that were referenced in `before`: they are referenced
still, or their rule is about to be removed. -/
structure Keeps (before : Registry) (p : Registry × Progress) : Prop where
  referenced : ∀ unit,
    0 < before.count unit ↔ 0 < p.1.count unit ∨ p.2.call? = some (.remove unit)
  count_call : ∀ call, p.2.call? = some call → p.1.count call.unit = 0

theorem keeps_done {r' : Registry} (h : r'.counts = r.counts) (result : Except Error Unit) :
    Keeps r (r', .done result) := by
  have hc : ∀ unit, r'.count unit = r.count unit := fun unit => by simp only [count, h]
  refine ⟨fun unit => ?_, fun call hcall => ?_⟩
  · simp [hc, Progress.call?]
  · simp [Progress.call?] at hcall

theorem keeps_ask_add {unit : String} (h : r.count unit = 0) (pause : Pause) :
    Keeps r (r, .ask (.add unit) pause) := by
  refine ⟨fun v => ?_, fun call hcall => ?_⟩
  · simp [Progress.call?]
  · simp only [Progress.call?, Option.some.injEq] at hcall
    exact hcall ▸ h

theorem Keeps.of_referenced {r' : Registry} {p : Registry × Progress} (h : Keeps r' p)
    (hr : ∀ unit, 0 < r.count unit ↔ 0 < r'.count unit) : Keeps r p :=
  ⟨fun unit => (hr unit).trans (h.referenced unit), h.count_call⟩

theorem keeps_releaseAll (failure : Option Error) {units : List String}
    (h : ∀ unit, r.counts.get? unit ≠ some 0) : Keeps r (r.releaseAll failure units) := by
  induction units generalizing r with
  | nil => exact keeps_done (by rfl) _
  | cons v rest ih =>
    cases hv : r.counts.get? v with
    | none =>
      have hl : r.letGo v = (r, false) := by simp [letGo, hv]
      simp only [releaseAll, hl]
      exact ih h
    | some n =>
      by_cases hn : 1 < n
      · have hl : r.letGo v = ({ r with counts := r.counts.put v (n - 1) }, false) := by
          simp [letGo, hv, hn]
        simp only [releaseAll, hl]
        have hs : ∀ unit, (r.counts.put v (n - 1)).get? unit ≠ some 0 := by
          intro unit
          rw [Table.get?_put]
          split
          · simp only [ne_eq, Option.some.injEq]
            omega
          · exact h unit
        apply (ih hs).of_referenced
        intro unit
        by_cases hu : unit = v
        · subst hu
          simp only [count, hv, Table.get?_put, if_true, Option.getD_some]
          omega
        · simp [count, Table.get?_put, hu]
      · have hl : r.letGo v = ({ r with counts := r.counts.erase v }, true) := by
          simp [letGo, hv, hn]
        have hp : 0 < n := Nat.pos_of_ne_zero fun hz => h v (hz ▸ hv)
        simp only [releaseAll, hl]
        refine ⟨fun unit => ?_, fun call hcall => ?_⟩
        · by_cases hu : unit = v
          · subst hu
            simp [count, hv, hp, Progress.call?]
          · have hu' : v ≠ unit := Ne.symm hu
            simp [count, Table.get?_erase, hu, hu', Progress.call?]
        · simp only [Progress.call?, Option.some.injEq] at hcall
          subst hcall
          simp [count, Table.get?_erase, MatchCall.unit]

theorem keeps_holdAll (s : SetId) (feed : FeedId) (held rest : List String) :
    Keeps r (r.holdAll s feed held rest) := by
  induction rest generalizing r held with
  | nil => exact keeps_done (by rfl) _
  | cons v rest ih =>
    unfold holdAll
    by_cases hc : r.count v = 0
    · rw [if_pos hc]
      exact keeps_ask_add hc _
    · rw [if_neg hc]
      apply (ih (held ++ [v])).of_referenced
      intro unit
      rw [count_hold]
      by_cases hu : unit = v
      · subst hu
        simp only [if_true]
        omega
      · simp [hu]

theorem counts_dues (r : Registry) (op : Operation) : (r.dues op).1.counts = r.counts := by
  cases op with
  | remove s unit =>
    simp only [dues]
    split <;> rfl
  | detach s only forget =>
    simp only [dues]
    cases r.sets.get? s with
    | none => rfl
    | some x =>
      dsimp only
      split
      · cases forget <;> rfl
      · rfl
  | unsubscribe feed =>
    simp only [dues]
    cases r.directs.get? feed <;> rfl
  | add s unit => rfl
  | attach s feed => rfl
  | subscribe feed unit => rfl

theorem keeps_dues (h : ∀ unit, r.counts.get? unit ≠ some 0) (op : Operation) :
    Keeps r ((r.dues op).1.releaseAll none (r.dues op).2) := by
  have hc := counts_dues r op
  apply (keeps_releaseAll none (hc ▸ h)).of_referenced
  intro unit
  simp only [count, hc]

theorem keeps_hold_done {r' : Registry} {unit : String} (h : r.count unit ≠ 0)
    (hr : r'.counts = (r.hold unit).counts) (result : Except Error Unit) :
    Keeps r (r', .done result) := by
  apply (keeps_done hr result).of_referenced
  intro v
  rw [count_hold]
  by_cases hv : v = unit
  · subst hv
    simp only [if_true]
    omega
  · simp [hv]

theorem keeps_begin (h : ∀ unit, r.counts.get? unit ≠ some 0) (op : Operation) :
    Keeps r (r.begin op) := by
  cases op with
  | add s unit =>
    simp only [begin]
    by_cases hm : unit ∈ (r.set s).members
    · rw [if_pos hm]
      exact keeps_done (by rfl) _
    · rw [if_neg hm]
      cases (r.set s).attached with
      | false => exact keeps_done (by rfl) _
      | true =>
        rw [if_pos rfl]
        by_cases hc : r.count unit = 0
        · rw [if_pos hc]
          exact keeps_ask_add hc _
        · rw [if_neg hc]
          exact keeps_hold_done hc (by rfl) _
  | attach s feed =>
    simp only [begin]
    cases (r.set s).attached with
    | true => exact keeps_done (by rfl) _
    | false => exact (keeps_holdAll s feed [] _).of_referenced fun _ => Iff.rfl
  | subscribe feed unit =>
    simp only [begin]
    by_cases hc : r.count unit = 0
    · rw [if_pos hc]
      exact keeps_ask_add hc _
    · rw [if_neg hc]
      exact keeps_hold_done hc (by rfl) _
  | remove s unit => exact begin_remove r s unit ▸ keeps_dues h _
  | detach s only forget => exact begin_detach r s only forget ▸ keeps_dues h _
  | unsubscribe feed => exact begin_unsubscribe r feed ▸ keeps_dues h _

/-- The registry after the bus has answered a call: a reference is held if a rule was added. -/
def answered (r : Registry) : MatchCall → Except Error Unit → Registry
  | .add unit, .ok _ => r.hold unit
  | _, _ => r

theorem keeps_resume {call : MatchCall} {pause : Pause} (answer : Except Error Unit)
    (h : ∀ unit, r.counts.get? unit ≠ some 0) (ha : pause.Awaits r call) :
    Keeps (r.answered call answer) (r.resume answer pause) := by
  cases pause with
  | joining s unit =>
    obtain ⟨rfl, -, -⟩ := ha
    cases answer <;> exact keeps_done (by rfl) _
  | subscribing feed unit =>
    obtain ⟨rfl, -⟩ := ha
    cases answer <;> exact keeps_done (by rfl) _
  | reattaching s feed held unit rest =>
    obtain ⟨rfl, -, -⟩ := ha
    cases answer with
    | error e => exact keeps_releaseAll (some e) h
    | ok _ => exact keeps_holdAll s feed (held ++ [unit]) rest
  | releasing failure rest =>
    obtain ⟨unit, rfl⟩ := ha
    cases answer <;> exact keeps_releaseAll _ h

end UnitControl.Registry
