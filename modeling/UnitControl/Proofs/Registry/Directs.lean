import UnitControl.Proofs.Registry.Operation

/-!
# Who adds a single subscription

An operation adds at most the single subscription that it is meant to add, and only when it is over.
-/

namespace UnitControl.Registry

variable {r : Registry}

@[simp] theorem directs_releaseAll (r : Registry) (failure : Option Error) (units : List String) :
    (r.releaseAll failure units).1.directs = r.directs := by
  induction units generalizing r with
  | nil => rfl
  | cons unit rest ih =>
    have hd := directs_letGo r unit
    unfold releaseAll
    cases hr : r.letGo unit with
    | mk r' last =>
      rw [hr] at hd
      cases last with
      | false => exact (ih r').trans hd
      | true => exact hd

@[simp] theorem directs_holdAll (r : Registry) (s : SetId) (feed : FeedId)
    (held rest : List String) : (r.holdAll s feed held rest).1.directs = r.directs := by
  induction rest generalizing r held with
  | nil => rfl
  | cons unit rest ih =>
    unfold holdAll
    by_cases hc : r.count unit = 0
    · rw [if_pos hc]
    · rw [if_neg hc]
      exact ih (r.hold unit) (held ++ [unit])

theorem directs_dues {op : Operation} {feed : FeedId} {unit : String}
    (h : (r.dues op).1.directs.get? feed = some unit) : r.directs.get? feed = some unit := by
  cases op with
  | remove s v =>
    simp only [dues] at h
    split at h <;> exact h
  | detach s only forget =>
    simp only [dues] at h
    cases hs : r.sets.get? s with
    | none =>
      rw [hs] at h
      exact h
    | some x =>
      rw [hs] at h
      dsimp only at h
      split at h
      · cases forget <;> exact h
      · exact h
  | unsubscribe f =>
    simp only [dues] at h
    cases hf : r.directs.get? f with
    | none =>
      rw [hf] at h
      exact h
    | some v =>
      rw [hf] at h
      dsimp only at h
      rw [Table.get?_erase] at h
      split at h
      · cases h
      · exact h
  | add s v => exact h
  | attach s f => exact h
  | subscribe f v => exact h

theorem get?_addDirect {feed f : FeedId} {v unit : String}
    (h : (r.addDirect feed v).directs.get? f = some unit) :
    f = feed ∨ r.directs.get? f = some unit := by
  simp only [addDirect, Table.get?_put] at h
  split at h
  · rename_i hf
    exact .inl hf
  · exact .inr h

/-- What has become of a registry in an operation that adds a subscription on no other feed than
`newcomer?`. -/
structure Admits (before : Registry) (newcomer? : Option FeedId) (p : Registry × Progress) :
    Prop where
  directs : ∀ feed unit, p.1.directs.get? feed = some unit →
    before.directs.get? feed = some unit ∨
      newcomer? = some feed ∧ ∃ result, p.2 = .done result
  waits : ∀ call feed unit, p.2 = .ask call (.subscribing feed unit) → newcomer? = some feed

theorem admits_releaseAll {r' : Registry} (newcomer? : Option FeedId) (failure : Option Error)
    (units : List String)
    (h : ∀ feed unit, r'.directs.get? feed = some unit → r.directs.get? feed = some unit) :
    Admits r newcomer? (r'.releaseAll failure units) := by
  constructor
  · intro feed unit hf
    rw [directs_releaseAll] at hf
    exact .inl (h feed unit hf)
  · intro call feed unit hp
    induction units generalizing r' with
    | nil => cases hp
    | cons v rest ih =>
      unfold releaseAll at hp
      have hd := directs_letGo r' v
      cases hr : r'.letGo v with
      | mk r'' last =>
        rw [hr] at hp hd
        cases last with
        | false => exact ih (fun f u hf => h f u (hd ▸ hf)) hp
        | true => cases hp

theorem admits_holdAll {r' : Registry} (newcomer? : Option FeedId) (s : SetId) (feed : FeedId)
    (held rest : List String) (h : r'.directs = r.directs) :
    Admits r newcomer? (r'.holdAll s feed held rest) := by
  constructor
  · intro f unit hf
    rw [directs_holdAll, h] at hf
    exact .inl hf
  · intro call f unit hp
    induction rest generalizing r' held with
    | nil => cases hp
    | cons v rest ih =>
      unfold holdAll at hp
      by_cases hc : r'.count v = 0
      · rw [if_pos hc] at hp
        cases hp
      · rw [if_neg hc] at hp
        have hd : (r'.hold v).directs = r.directs := h
        exact ih (held ++ [v]) hd hp

theorem admits_done {r' : Registry} (newcomer? : Option FeedId) (result : Except Error Unit)
    (h : r'.directs = r.directs) : Admits r newcomer? (r', .done result) :=
  ⟨fun _ _ hf => .inl (h ▸ hf), fun _ _ _ hp => by cases hp⟩

theorem admits_addDirect (feed : FeedId) (unit : String) (result : Except Error Unit) :
    Admits r (some feed) ((r.hold unit).addDirect feed unit, .done result) := by
  refine ⟨fun f v hf => ?_, fun _ _ _ hp => by cases hp⟩
  rcases get?_addDirect hf with rfl | hf
  · exact .inr ⟨rfl, result, rfl⟩
  · exact .inl hf

theorem admits_begin (r : Registry) (op : Operation) : Admits r op.newcomer? (r.begin op) := by
  cases op with
  | add s unit =>
    simp only [begin]
    split
    · exact admits_done _ _ rfl
    · split
      · split
        · exact ⟨fun _ _ hf => .inl hf, fun _ _ _ hp => by cases hp⟩
        · exact admits_done _ _ rfl
      · exact admits_done _ _ rfl
  | attach s feed =>
    simp only [begin]
    split
    · exact admits_done _ _ rfl
    · exact admits_holdAll _ s feed [] _ rfl
  | subscribe feed unit =>
    simp only [begin]
    split
    · refine ⟨fun _ _ hf => .inl hf, fun call f v hp => ?_⟩
      cases hp
      rfl
    · exact admits_addDirect feed unit _
  | remove s unit =>
    rw [begin_remove]
    exact admits_releaseAll _ _ _ fun _ _ => directs_dues
  | detach s only forget =>
    rw [begin_detach]
    exact admits_releaseAll _ _ _ fun _ _ => directs_dues
  | unsubscribe feed =>
    rw [begin_unsubscribe]
    exact admits_releaseAll _ _ _ fun _ _ => directs_dues

/-- The feed that waits for its single subscription. -/
def Pause.newcomer? : Pause → Option FeedId
  | subscribing feed _ => some feed
  | _ => none

theorem admits_resume (r : Registry) (answer : Except Error Unit) (pause : Pause) :
    Admits r pause.newcomer? (r.resume answer pause) := by
  cases pause with
  | joining s unit => cases answer <;> exact admits_done _ _ rfl
  | subscribing feed unit =>
    cases answer with
    | ok _ => exact admits_addDirect feed unit _
    | error e => exact admits_done _ _ rfl
  | reattaching s feed held unit rest =>
    cases answer with
    | ok _ => exact admits_holdAll _ s feed _ rest rfl
    | error e => exact admits_releaseAll _ _ held fun _ _ hf => hf
  | releasing failure rest =>
    cases answer <;> exact admits_releaseAll _ _ rest fun _ _ hf => hf

end UnitControl.Registry
