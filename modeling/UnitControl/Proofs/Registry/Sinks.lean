import UnitControl.Proofs.Registry.Directs

/-!
# Where a feed has its place

A feed is the sink of one set, or that of one single subscription, and a set that is detached has no
sink. An operation gives a place to no other feed than its newcomer, and only when it is over.
-/

namespace UnitControl.Registry

/-- Whether a set or a single subscription delivers on a feed. -/
def Serves (r : Registry) (feed : FeedId) : Prop :=
  (∃ s, (r.set s).sink = some feed) ∨ ∃ unit, r.directs.get? feed = some unit

structure Wired (r : Registry) : Prop where
  bare : ∀ s, (r.set s).attached = false → (r.set s).sink = none
  sinks : ∀ s t feed, (r.set s).sink = some feed → (r.set t).sink = some feed → s = t
  apart : ∀ s feed, (r.set s).sink = some feed → r.directs.get? feed = none

/-- No feed has a place in the second registry that it did not have in the first. -/
structure Recedes (r r' : Registry) : Prop where
  sinks : ∀ s feed, (r'.set s).sink = some feed → (r.set s).sink = some feed
  directs : ∀ feed unit, r'.directs.get? feed = some unit → r.directs.get? feed = some unit
  bare : ∀ s, (r'.set s).attached = false → (r'.set s).sink = none ∨ (r.set s).attached = false

variable {r r' r'' : Registry}

theorem wired_empty : empty.Wired :=
  ⟨fun _ _ => rfl, fun _ _ _ h => (by cases h), fun _ _ _ => rfl⟩

theorem recedes_of_eq (hs : r'.sets = r.sets) (hd : r'.directs = r.directs) : Recedes r r' := by
  have hset : ∀ s, r'.set s = r.set s := fun s => by rw [set, set, hs]
  exact ⟨fun s _ h => hset s ▸ h, fun _ _ h => hd ▸ h, fun s h => .inr (hset s ▸ h)⟩

theorem Recedes.trans (h : Recedes r r') (h' : Recedes r' r'') : Recedes r r'' where
  sinks s feed hs := h.sinks s feed (h'.sinks s feed hs)
  directs feed unit hd := h.directs feed unit (h'.directs feed unit hd)
  bare s ha := by
    rcases h'.bare s ha with hs | ha
    · exact .inl hs
    · refine (h.bare s ha).imp_left fun hn => ?_
      cases hs : (r''.set s).sink with
      | none => rfl
      | some feed => rw [h'.sinks s feed hs] at hn; cases hn

theorem Recedes.serves (h : Recedes r r') {feed : FeedId} (hf : r'.Serves feed) :
    r.Serves feed := by
  obtain ⟨s, hs⟩ | ⟨unit, hd⟩ := hf
  · exact .inl ⟨s, h.sinks s feed hs⟩
  · exact .inr ⟨unit, h.directs feed unit hd⟩

theorem Recedes.wired (h : Recedes r r') (hw : r.Wired) : r'.Wired where
  bare s ha := by
    rcases h.bare s ha with hs | ha
    · exact hs
    · cases hs : (r'.set s).sink with
      | none => rfl
      | some feed =>
        have hold := h.sinks s feed hs
        rw [hw.bare s ha] at hold
        cases hold
  sinks s t feed hs ht := hw.sinks s t feed (h.sinks s feed hs) (h.sinks t feed ht)
  apart s feed hs := by
    cases hd : r'.directs.get? feed with
    | none => rfl
    | some unit =>
      have hn := hw.apart s feed (h.sinks s feed hs)
      rw [h.directs feed unit hd] at hn
      cases hn

theorem recedes_putSet (s : SetId) {x : UnitSet} (hx : x.sink = none ∨
    x.sink = (r.set s).sink ∧ x.attached = (r.set s).attached) : Recedes r (r.putSet s x) := by
  constructor
  · intro t feed ht
    rw [set_putSet] at ht
    split at ht
    · rename_i hts
      subst hts
      obtain hn | ⟨hs, -⟩ := hx
      · rw [hn] at ht
        cases ht
      · exact hs ▸ ht
    · exact ht
  · exact fun _ _ h => h
  · intro t ha
    rw [set_putSet] at ha ⊢
    split
    · rename_i hts
      subst hts
      rw [if_pos rfl] at ha
      obtain hn | ⟨-, hs⟩ := hx
      · exact .inl hn
      · exact .inr (hs ▸ ha)
    · rename_i hts
      rw [if_neg hts] at ha
      exact .inr ha

theorem set_eraseSet (r : Registry) (s t : SetId) :
    { r with sets := r.sets.erase s }.set t = if t = s then .new else r.set t := by
  simp only [set, Table.get?_erase]
  split <;> rfl

theorem recedes_eraseSet (r : Registry) (s : SetId) :
    Recedes r { r with sets := r.sets.erase s } := by
  constructor
  · intro t feed ht
    rw [set_eraseSet] at ht
    split at ht
    · cases ht
    · exact ht
  · exact fun _ _ h => h
  · intro t ha
    rw [set_eraseSet] at ha ⊢
    split
    · exact .inl rfl
    · rename_i hts
      rw [if_neg hts] at ha
      exact .inr ha

theorem recedes_eraseDirect (r : Registry) (feed : FeedId) :
    Recedes r { r with directs := r.directs.erase feed } := by
  refine ⟨fun _ _ h => h, fun f unit h => ?_, fun _ h => .inr h⟩
  rw [Table.get?_erase] at h
  split at h
  · cases h
  · exact h

theorem recedes_join (r : Registry) (s : SetId) (unit : String) : Recedes r (r.join s unit) := by
  apply recedes_putSet
  unfold UnitSet.join
  split <;> exact .inr ⟨rfl, rfl⟩

@[simp] theorem sets_releaseAll (r : Registry) (failure : Option Error) (units : List String) :
    (r.releaseAll failure units).1.sets = r.sets := by
  induction units generalizing r with
  | nil => rfl
  | cons unit rest ih =>
    have hd := sets_letGo r unit
    unfold releaseAll
    cases hr : r.letGo unit with
    | mk r' last =>
      rw [hr] at hd
      cases last with
      | false => exact (ih r').trans hd
      | true => exact hd

theorem recedes_releaseAll (r : Registry) (failure : Option Error) (units : List String) :
    Recedes r (r.releaseAll failure units).1 :=
  recedes_of_eq (sets_releaseAll r failure units) (directs_releaseAll r failure units)

theorem recedes_dues (r : Registry) (op : Operation) : Recedes r (r.dues op).1 := by
  have hsame : Recedes r r := recedes_of_eq rfl rfl
  cases op with
  | add s unit => exact hsame
  | attach s feed => exact hsame
  | subscribe feed unit => exact hsame
  | remove s unit =>
    simp only [dues]
    split
    · exact recedes_putSet s (.inr ⟨rfl, rfl⟩)
    · exact hsame
  | detach s only forget =>
    simp only [dues]
    cases r.sets.get? s with
    | none => exact hsame
    | some x =>
      dsimp only
      split
      · cases forget with
        | true => exact recedes_eraseSet r s
        | false => exact recedes_putSet s (.inl rfl)
      · exact hsame
  | unsubscribe feed =>
    simp only [dues]
    cases r.directs.get? feed with
    | none => exact hsame
    | some unit => exact recedes_eraseDirect r feed

/-- The feed that an operation which waits is to give a place to. -/
def Pause.feed? : Pause → Option FeedId
  | subscribing feed _ | reattaching _ feed .. => some feed
  | joining .. | releasing .. => none

/-- What has become of a registry in an operation that gives no other feed a place than
`newcomer?`. -/
structure Places (before : Registry) (newcomer? : Option FeedId) (p : Registry × Progress) :
    Prop where
  wired : before.Wired → (∀ feed, newcomer? = some feed → ¬before.Serves feed) → p.1.Wired
  serves : ∀ feed, p.1.Serves feed →
    before.Serves feed ∨ newcomer? = some feed ∧ ∃ result, p.2 = .done result
  waits : ∀ call pause feed, p.2 = .ask call pause → pause.feed? = some feed →
    newcomer? = some feed

theorem Recedes.places {newcomer? : Option FeedId} {p : Registry × Progress}
    (h : Recedes r p.1) (hw : ∀ call pause feed, p.2 = .ask call pause → pause.feed? = some feed →
      newcomer? = some feed) : Places r newcomer? p :=
  ⟨fun hr _ => h.wired hr, fun _ hf => .inl (h.serves hf), hw⟩

theorem Recedes.places_done (h : Recedes r r') (newcomer? : Option FeedId)
    (result : Except Error Unit) : Places r newcomer? (r', .done result) :=
  Recedes.places (p := (r', .done result)) h fun _ _ _ hp => by cases hp

theorem Recedes.andPlaces {newcomer? : Option FeedId} {p : Registry × Progress}
    (h : Recedes r r') (hp : Places r' newcomer? p) : Places r newcomer? p where
  wired hw hn := hp.wired (h.wired hw) fun feed hf hs => hn feed hf (h.serves hs)
  serves feed hf := (hp.serves feed hf).imp_left h.serves
  waits := hp.waits

theorem places_releaseAll (r : Registry) (newcomer? : Option FeedId) (failure : Option Error)
    (units : List String) : Places r newcomer? (r.releaseAll failure units) := by
  refine (recedes_releaseAll r failure units).places fun call pause feed hp hf => ?_
  induction units generalizing r with
  | nil => cases hp
  | cons v rest ih =>
    unfold releaseAll at hp
    cases hr : r.letGo v with
    | mk r' last =>
      rw [hr] at hp
      cases last with
      | false => exact ih r' hp
      | true =>
        cases hp
        cases hf

theorem places_install (r : Registry) (s : SetId) (feed : FeedId) (result : Except Error Unit) :
    Places r (some feed) (r.install s feed, .done result) := by
  have hset : ∀ t, (r.install s feed).set t = _ := fun t => set_putSet r s _ t
  have hsink : ∀ t f, ((r.install s feed).set t).sink = some f →
      t = s ∧ f = feed ∨ t ≠ s ∧ (r.set t).sink = some f := by
    intro t f ht
    rw [hset] at ht
    split at ht
    · rename_i hts
      exact .inl ⟨hts, (Option.some.inj ht).symm⟩
    · rename_i hts
      exact .inr ⟨hts, ht⟩
  refine ⟨fun hw hn => ⟨?_, ?_, ?_⟩, ?_, fun _ _ _ hp => by cases hp⟩
  · intro t ha
    rw [hset] at ha ⊢
    split
    · rename_i hts
      rw [if_pos hts] at ha
      cases ha
    · rename_i hts
      rw [if_neg hts] at ha
      exact hw.bare t ha
  · intro t t' f ht ht'
    have hnew : ∀ t, (r.set t).sink ≠ some feed := fun t ht => hn feed rfl (.inl ⟨t, ht⟩)
    obtain ⟨rfl, rfl⟩ | ⟨-, hold⟩ := hsink t f ht
    · obtain ⟨rfl, -⟩ | ⟨-, hold'⟩ := hsink t' f ht'
      · rfl
      · exact absurd hold' (hnew t')
    · obtain ⟨-, rfl⟩ | ⟨-, hold'⟩ := hsink t' f ht'
      · exact absurd hold (hnew t)
      · exact hw.sinks t t' f hold hold'
  · intro t f ht
    obtain ⟨-, rfl⟩ | ⟨-, ht⟩ := hsink t f ht
    · cases hd : r.directs.get? f with
      | none => exact hd
      | some unit => exact absurd (.inr ⟨unit, hd⟩) (hn f rfl)
    · exact hw.apart t f ht
  · intro f hf
    obtain ⟨t, ht⟩ | ⟨unit, hd⟩ := hf
    · obtain ⟨-, rfl⟩ | ⟨-, ht⟩ := hsink t f ht
      · exact .inr ⟨rfl, result, rfl⟩
      · exact .inl (.inl ⟨t, ht⟩)
    · exact .inl (.inr ⟨unit, hd⟩)

theorem places_addDirect (r : Registry) (feed : FeedId) (unit : String)
    (result : Except Error Unit) :
    Places r (some feed) ((r.hold unit).addDirect feed unit, .done result) := by
  refine ⟨fun hw hn => ⟨hw.bare, hw.sinks, fun t f ht => ?_⟩, fun f hf => ?_,
    fun _ _ _ hp => by cases hp⟩
  · cases hd : ((r.hold unit).addDirect feed unit).directs.get? f with
    | none => rfl
    | some v =>
      rcases get?_addDirect hd with rfl | hd
      · exact absurd (.inl ⟨t, ht⟩) (hn f rfl)
      · have hnone : (r.hold unit).directs.get? f = none := hw.apart t f ht
        rw [hnone] at hd
        cases hd
  · obtain ⟨t, ht⟩ | ⟨v, hd⟩ := hf
    · exact .inl (.inl ⟨t, ht⟩)
    · rcases get?_addDirect hd with rfl | hd
      · exact .inr ⟨rfl, result, rfl⟩
      · exact .inl (.inr ⟨v, hd⟩)

theorem places_holdAll (r : Registry) (s : SetId) (feed : FeedId) (held rest : List String) :
    Places r (some feed) (r.holdAll s feed held rest) := by
  induction rest generalizing r held with
  | nil => exact places_install r s feed _
  | cons unit rest ih =>
    unfold holdAll
    have hsame : Recedes r r := recedes_of_eq rfl rfl
    by_cases hc : r.count unit = 0
    · rw [if_pos hc]
      refine hsame.places (p := (r, _)) fun call pause f hp hf => ?_
      cases hp
      exact hf
    · rw [if_neg hc]
      have hhold : Recedes r (r.hold unit) := recedes_of_eq rfl rfl
      exact hhold.andPlaces (ih (r.hold unit) (held ++ [unit]))

theorem places_begin (r : Registry) (op : Operation) : Places r op.newcomer? (r.begin op) := by
  have hsame : Recedes r r := recedes_of_eq rfl rfl
  cases op with
  | add s unit =>
    simp only [begin]
    split
    · exact hsame.places_done _ _
    · split
      · split
        · refine hsame.places (p := (r, _)) fun call pause f hp hf => ?_
          cases hp
          cases hf
        · have hhold : Recedes r (r.hold unit) := recedes_of_eq rfl rfl
          exact (hhold.trans (recedes_join _ s unit)).places_done _ _
      · exact (recedes_join r s unit).places_done _ _
  | attach s feed =>
    simp only [begin]
    split
    · exact places_install r s feed _
    · exact (recedes_putSet s (.inl rfl)).andPlaces (places_holdAll _ s feed [] _)
  | subscribe feed unit =>
    simp only [begin]
    split
    · refine hsame.places (p := (r, _)) fun call pause f hp hf => ?_
      cases hp
      exact hf
    · exact places_addDirect r feed unit _
  | remove s unit =>
    rw [begin_remove]
    exact (recedes_dues r _).andPlaces (places_releaseAll _ _ _ _)
  | detach s only forget =>
    rw [begin_detach]
    exact (recedes_dues r _).andPlaces (places_releaseAll _ _ _ _)
  | unsubscribe feed =>
    rw [begin_unsubscribe]
    exact (recedes_dues r _).andPlaces (places_releaseAll _ _ _ _)

theorem places_resume (r : Registry) (answer : Except Error Unit) (pause : Pause) :
    Places r pause.feed? (r.resume answer pause) := by
  have hsame : Recedes r r := recedes_of_eq rfl rfl
  have hhold : ∀ unit, Recedes r (r.hold unit) := fun _ => recedes_of_eq rfl rfl
  cases pause with
  | joining s unit =>
    cases answer with
    | ok _ => exact ((hhold unit).trans (recedes_join _ s unit)).places_done _ _
    | error e => exact hsame.places_done _ _
  | subscribing feed unit =>
    cases answer with
    | ok _ => exact places_addDirect r feed unit _
    | error e => exact hsame.places_done _ _
  | reattaching s feed held unit rest =>
    cases answer with
    | ok _ => exact (hhold unit).andPlaces (places_holdAll _ s feed _ rest)
    | error e => exact places_releaseAll _ _ _ held
  | releasing failure rest =>
    cases answer <;> exact places_releaseAll _ _ _ rest

end UnitControl.Registry
