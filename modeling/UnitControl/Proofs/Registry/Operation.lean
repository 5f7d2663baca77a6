import UnitControl.Proofs.Registry.Balance

/-!
# Operations keep the balance

Every operation starts from a balanced registry and leaves a balanced one, whatever the bus answers;
while it waits, what is out of balance is known from its pause. Hence no reference is ever let go
that was not counted.
-/

namespace UnitControl.Registry

variable {r : Registry}

/-- The references that are counted on account of an operation that waits. -/
def Pause.spare : Pause → List String
  | joining .. | subscribing .. => []
  | reattaching _ _ held _ _ => held
  | releasing _ rest => rest

/-- What an operation that waits for a call relies on. The set that is to be joined or attached
again is as it was when the call was made, and the feed that is to subscribe is not known. -/
def Pause.Awaits (r : Registry) (call : MatchCall) : Pause → Prop
  | joining s unit => call = .add unit ∧ (r.set s).attached = true ∧ unit ∉ (r.set s).members
  | subscribing feed unit => call = .add unit ∧ r.directs.get? feed = none
  | reattaching s _ held unit rest =>
    call = .add unit ∧ (r.set s).attached = false ∧ (r.set s).members = held ++ unit :: rest
  | releasing .. => ∃ unit, call = .remove unit

def Progress.Sound (r : Registry) : Progress → Prop
  | done _ => r.Balanced []
  | ask call pause => r.Balanced pause.spare ∧ pause.Awaits r call

/-- A single subscription is made on a feed that has none yet. -/
def Operation.IsNew (r : Registry) : Operation → Prop
  | subscribe feed _ => r.directs.get? feed = none
  | _ => True

theorem Balanced.putSet {spare spare' : List String} (h : r.Balanced spare) {s : SetId}
    {x : UnitSet}
    (hx : ∀ unit, (x.claims unit).toNat + spare'.count unit =
      ((r.set s).claims unit).toNat + spare.count unit) :
    (r.putSet s x).Balanced spare' := by
  refine ⟨fun unit => ?_, h.stored_ne_zero⟩
  have hc := h.count_eq unit
  have hp := holders_putSet r s x unit
  have hu := hx unit
  rw [count_putSet]
  omega

theorem Balanced.eraseSet {spare spare' : List String} (h : r.Balanced spare) {s : SetId}
    (hx : ∀ unit, spare'.count unit = ((r.set s).claims unit).toNat + spare.count unit) :
    { r with sets := r.sets.erase s }.Balanced spare' := by
  refine ⟨fun unit => ?_, h.stored_ne_zero⟩
  have hc := h.count_eq unit
  have he := holders_eraseSet r s unit
  have hu := hx unit
  change r.count unit = _
  omega

theorem Balanced.install_of_attached (h : r.Balanced []) {s : SetId} (feed : FeedId)
    (ha : (r.set s).attached = true) : (r.install s feed).Balanced [] := by
  apply h.putSet
  intro unit
  simp [UnitSet.claims, ha]

theorem Balanced.install_of_detached {held : List String} (h : r.Balanced held) {s : SetId}
    (feed : FeedId) (ha : (r.set s).attached = false) (hm : (r.set s).members = held) :
    (r.install s feed).Balanced [] := by
  apply h.putSet
  intro unit
  rw [UnitSet.toNat_claims, UnitSet.toNat_claims]
  simp [ha, hm]

theorem Balanced.join_hold (h : r.Balanced []) {s : SetId} {unit : String}
    (ha : (r.set s).attached = true) (hm : unit ∉ (r.set s).members) :
    ((r.hold unit).join s unit).Balanced [] := by
  apply (h.hold unit).putSet
  intro v
  rw [set_hold, UnitSet.claims_join, UnitSet.claims, List.count_singleton]
  by_cases hv : v = unit
  · subst hv
    simp [ha, hm]
  · have hv' : unit ≠ v := Ne.symm hv
    simp [ha, hv, hv']

theorem Balanced.addDirect_hold (h : r.Balanced []) {feed : FeedId} {unit : String}
    (hf : r.directs.get? feed = none) : ((r.hold unit).addDirect feed unit).Balanced [] := by
  refine ⟨fun v => ?_, (h.hold unit).stored_ne_zero⟩
  have hc := (h.hold unit).count_eq v
  have ha : ((r.hold unit).addDirect feed unit).holders v = _ := holders_addDirect hf unit v
  rw [List.count_singleton] at hc
  change (r.hold unit).count v = _
  rw [ha, hc]
  by_cases hv : unit = v <;> simp [hv]

theorem Balanced.eraseDirect (h : r.Balanced []) {feed : FeedId} {unit : String}
    (hf : r.directs.get? feed = some unit) :
    { r with directs := r.directs.erase feed }.Balanced [unit] := by
  refine ⟨fun v => ?_, h.stored_ne_zero⟩
  have hc := h.count_eq v
  have he := holders_eraseDirect hf v
  rw [List.count_singleton]
  change r.count v = _
  rw [List.count_nil] at hc
  by_cases hv : unit = v <;> simp [hv] at he ⊢ <;> omega

theorem sound_releaseAll (failure : Option Error) {units : List String}
    (h : r.Balanced units) :
    (r.releaseAll failure units).2.Sound (r.releaseAll failure units).1 := by
  induction units generalizing r with
  | nil => exact h
  | cons unit rest ih =>
    have hl := h.letGo
    unfold releaseAll
    cases hr : r.letGo unit with
    | mk r' last =>
      rw [hr] at hl
      cases last with
      | false => exact ih hl
      | true => exact ⟨hl, unit, rfl⟩

theorem sound_holdAll {s : SetId} (feed : FeedId) {held rest : List String}
    (h : r.Balanced held) (ha : (r.set s).attached = false)
    (hm : (r.set s).members = held ++ rest) :
    (r.holdAll s feed held rest).2.Sound (r.holdAll s feed held rest).1 := by
  induction rest generalizing r held with
  | nil =>
    rw [List.append_nil] at hm
    exact h.install_of_detached feed ha hm
  | cons unit rest ih =>
    unfold holdAll
    by_cases hc : r.count unit = 0
    · rw [if_pos hc]
      exact ⟨h, rfl, ha, hm⟩
    · rw [if_neg hc]
      have hp : (unit :: held).Perm (held ++ [unit]) := (List.perm_append_singleton unit held).symm
      apply ih ((h.hold unit).perm hp)
      · exact ha
      · rw [set_hold, hm, List.append_assoc, List.singleton_append]

/-- The registry in which an operation lets references go as it begins, and whose they are. -/
def dues (r : Registry) : Operation → Registry × List String
  | .remove s unit =>
    if unit ∈ (r.set s).members then
      (r.putSet s ((r.set s).leave unit), if (r.set s).attached then [unit] else [])
    else (r, [])
  | .detach s only forget =>
    match r.sets.get? s with
    | none => (r, [])
    | some x =>
      if isCurrent x only then
        (if forget then { r with sets := r.sets.erase s }
          else r.putSet s { x with attached := false, sink := none },
          if x.attached then x.members else [])
      else (r, [])
  | .unsubscribe feed =>
    match r.directs.get? feed with
    | none => (r, [])
    | some unit => ({ r with directs := r.directs.erase feed }, [unit])
  | .add .. | .attach .. | .subscribe .. => (r, [])

theorem begin_remove (r : Registry) (s : SetId) (unit : String) :
    r.begin (.remove s unit) =
      (r.dues (.remove s unit)).1.releaseAll none (r.dues (.remove s unit)).2 := by
  simp only [begin, dues]
  by_cases hm : unit ∈ (r.set s).members
  · rw [if_pos hm, if_pos hm]
    cases (r.set s).attached <;> rfl
  · rw [if_neg hm, if_neg hm]
    rfl

theorem begin_detach (r : Registry) (s : SetId) (only : Option FeedId) (forget : Bool) :
    r.begin (.detach s only forget) =
      (r.dues (.detach s only forget)).1.releaseAll none (r.dues (.detach s only forget)).2 := by
  simp only [begin, dues]
  cases r.sets.get? s with
  | none => rfl
  | some x =>
    dsimp only
    by_cases hc : isCurrent x only = true
    · rw [if_pos hc, if_pos hc]
    · rw [if_neg hc, if_neg hc]
      rfl

theorem begin_unsubscribe (r : Registry) (feed : FeedId) :
    r.begin (.unsubscribe feed) =
      (r.dues (.unsubscribe feed)).1.releaseAll none (r.dues (.unsubscribe feed)).2 := by
  simp only [begin, dues]
  cases r.directs.get? feed <;> rfl

theorem begin_eq_releaseAll {op : Operation} (h : (r.dues op).2 ≠ []) :
    r.begin op = (r.dues op).1.releaseAll none (r.dues op).2 := by
  cases op with
  | remove s unit => exact begin_remove r s unit
  | detach s only forget => exact begin_detach r s only forget
  | unsubscribe feed => exact begin_unsubscribe r feed
  | add s unit => exact absurd rfl h
  | attach s feed => exact absurd rfl h
  | subscribe feed unit => exact absurd rfl h

/-- The references that an operation lets go when it goes on. -/
def Pause.dues (answer : Except Error Unit) : Pause → List String
  | reattaching _ _ held _ _ =>
    match answer with
    | .error _ => held
    | .ok _ => []
  | releasing _ rest => rest
  | joining .. | subscribing .. => []

theorem balanced_dues_remove (h : r.Balanced []) (s : SetId) (unit : String) :
    (r.dues (.remove s unit)).1.Balanced (r.dues (.remove s unit)).2 := by
  simp only [dues]
  by_cases hm : unit ∈ (r.set s).members
  · rw [if_pos hm]
    apply h.putSet
    intro v
    rw [UnitSet.claims_leave, UnitSet.claims]
    by_cases hv : v = unit
    · subst hv
      cases (r.set s).attached <;> simp [hm]
    · have hv' : unit ≠ v := Ne.symm hv
      cases (r.set s).attached <;> simp [hv, hv']
  · rw [if_neg hm]
    exact h

theorem balanced_dues_detach (h : r.Balanced []) (s : SetId) (only : Option FeedId)
    (forget : Bool) :
    (r.dues (.detach s only forget)).1.Balanced (r.dues (.detach s only forget)).2 := by
  simp only [dues]
  cases hs : r.sets.get? s with
  | none => exact h
  | some x =>
    have hx : r.set s = x := by simp [set, hs]
    have hm : ∀ v, (if x.attached = true then x.members else []).count v =
        (x.claims v).toNat := by
      intro v
      rw [UnitSet.toNat_claims]
      cases x.attached <;> simp
    dsimp only
    by_cases hc : isCurrent x only = true
    · rw [if_pos hc]
      cases forget with
      | true =>
        apply h.eraseSet
        intro v
        rw [hm v, hx]
        simp
      | false =>
        apply h.putSet
        intro v
        rw [hm v, hx]
        simp [UnitSet.claims]
    · rw [if_neg hc]
      exact h

theorem balanced_dues (h : r.Balanced []) (op : Operation) :
    (r.dues op).1.Balanced (r.dues op).2 := by
  cases op with
  | add s unit => exact h
  | attach s feed => exact h
  | subscribe feed unit => exact h
  | remove s unit => exact balanced_dues_remove h s unit
  | detach s only forget => exact balanced_dues_detach h s only forget
  | unsubscribe feed =>
    simp only [dues]
    cases hf : r.directs.get? feed with
    | none => exact h
    | some unit => exact h.eraseDirect hf

theorem sound_begin {op : Operation} (h : r.Balanced []) (hn : op.IsNew r) :
    (r.begin op).2.Sound (r.begin op).1 := by
  cases op with
  | add s unit =>
    simp only [begin]
    by_cases hm : unit ∈ (r.set s).members
    · rw [if_pos hm]
      exact h
    · rw [if_neg hm]
      cases ha : (r.set s).attached with
      | false =>
        apply h.putSet
        intro v
        rw [UnitSet.claims_join, UnitSet.claims]
        simp [ha]
      | true =>
        rw [if_pos rfl]
        by_cases hc : r.count unit = 0
        · rw [if_pos hc]
          exact ⟨h, rfl, ha, hm⟩
        · rw [if_neg hc]
          exact h.join_hold ha hm
  | remove s unit =>
    rw [begin_remove]
    exact sound_releaseAll none (balanced_dues h _)
  | attach s feed =>
    simp only [begin]
    cases ha : (r.set s).attached with
    | true => exact h.install_of_attached feed ha
    | false =>
      apply sound_holdAll
      · apply h.putSet
        intro v
        simp [UnitSet.claims, ha]
      · rw [set_putSet, if_pos rfl]
      · rw [set_putSet, if_pos rfl, List.nil_append]
  | detach s only forget =>
    rw [begin_detach]
    exact sound_releaseAll none (balanced_dues h _)
  | subscribe feed unit =>
    simp only [begin]
    by_cases hc : r.count unit = 0
    · rw [if_pos hc]
      exact ⟨h, rfl, hn⟩
    · rw [if_neg hc]
      exact h.addDirect_hold hn
  | unsubscribe feed =>
    rw [begin_unsubscribe]
    exact sound_releaseAll none (balanced_dues h _)

theorem sound_resume {call : MatchCall} {pause : Pause} (answer : Except Error Unit)
    (h : r.Balanced pause.spare) (ha : pause.Awaits r call) :
    (r.resume answer pause).2.Sound (r.resume answer pause).1 := by
  cases pause with
  | joining s unit =>
    obtain ⟨-, hs, hm⟩ := ha
    cases answer with
    | error e => exact h
    | ok _ => exact h.join_hold hs hm
  | subscribing feed unit =>
    cases answer with
    | error e => exact h
    | ok _ => exact h.addDirect_hold ha.2
  | reattaching s feed held unit rest =>
    obtain ⟨-, hs, hm⟩ := ha
    cases answer with
    | error e => exact sound_releaseAll (some e) h
    | ok _ =>
      have hp : (unit :: held).Perm (held ++ [unit]) := (List.perm_append_singleton unit held).symm
      apply sound_holdAll feed ((h.hold unit).perm hp)
      · exact hs
      · rw [set_hold, hm, List.append_assoc, List.singleton_append]
  | releasing failure rest =>
    cases answer with
    | error e => exact sound_releaseAll _ h
    | ok _ => exact sound_releaseAll failure h

/-- Letting the references on the units go, one after the other, finds a stored count each time. -/
def Covered : Registry → List String → Prop
  | _, [] => True
  | r, unit :: rest => r.counts.contains unit = true ∧ (r.letGo unit).1.Covered rest

theorem contains_counts_of_pos {unit : String} (h : 0 < r.count unit) :
    r.counts.contains unit = true := by
  cases hc : r.counts.get? unit with
  | none => simp [count, hc] at h
  | some n => exact Table.contains_of_get? hc

theorem Balanced.covered {units : List String} (h : r.Balanced units) : r.Covered units := by
  induction units generalizing r with
  | nil => trivial
  | cons unit rest ih => exact ⟨contains_counts_of_pos h.count_pos, ih h.letGo⟩

theorem resume_eq_releaseAll {answer : Except Error Unit} {pause : Pause}
    (h : pause.dues answer ≠ []) :
    ∃ failure, r.resume answer pause = r.releaseAll failure (pause.dues answer) := by
  cases pause with
  | joining s unit => exact absurd rfl h
  | subscribing feed unit => exact absurd rfl h
  | reattaching s feed held unit rest =>
    cases answer with
    | ok _ => exact absurd rfl h
    | error e => exact ⟨some e, rfl⟩
  | releasing failure rest =>
    cases answer with
    | ok _ => exact ⟨failure, rfl⟩
    | error e => exact ⟨failure.or (some e), rfl⟩

theorem Balanced.covered_dues {pause : Pause}
    (answer : Except Error Unit) (h : r.Balanced pause.spare) :
    r.Covered (pause.dues answer) := by
  cases pause with
  | joining s unit => trivial
  | subscribing feed unit => trivial
  | reattaching s feed held unit rest =>
    cases answer with
    | ok _ => trivial
    | error e => exact h.covered
  | releasing failure rest => exact h.covered

end UnitControl.Registry
