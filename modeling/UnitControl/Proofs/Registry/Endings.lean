import UnitControl.Proofs.Registry.Sinks

/-!
# How a feed loses its place

A feed loses its place in the registry in the beginning of an operation that closes it, and in no
other way. A detachment that is meant for a sink which is not there does nothing at all.
-/

namespace UnitControl.Registry

variable {r r' : Registry} {op : Operation} {feed : FeedId}

theorem sink_of_get? {s : SetId} {x : UnitSet} (h : r.sets.get? s = some x) : r.set s = x := by
  simp only [set, h, Option.getD_some]

theorem isCurrent_some (x : UnitSet) (feed : FeedId) :
    isCurrent x (some feed) = true ↔ x.sink = some feed := by
  simp only [isCurrent, Option.isNone_some, Bool.false_or, decide_eq_true_eq]

theorem contains_directs :
    r.directs.contains feed = true ↔ ∃ unit, r.directs.get? feed = some unit :=
  Option.isSome_iff_exists

theorem closes_detach {s : SetId} {only : Option FeedId} {forget : Bool} :
    r.closes (.detach s only forget) = some feed ↔
      (r.set s).sink = some feed ∧ isCurrent (r.set s) only = true := by
  simp only [closes]
  split
  · exact ⟨fun h => ⟨h, ‹_›⟩, And.left⟩
  · exact ⟨fun h => (by cases h), fun h => absurd h.2 ‹_›⟩

theorem closes_unsubscribe {f : FeedId} : r.closes (.unsubscribe f) = some feed ↔
    f = feed ∧ r.directs.contains feed = true := by
  simp only [closes]
  split
  · exact ⟨fun h => by cases h; exact ⟨rfl, ‹_›⟩, fun h => congrArg some h.1⟩
  · refine ⟨fun h => (by cases h), ?_⟩
    rintro ⟨rfl, h⟩
    exact absurd h ‹_›

/-- A sink that is replaced, cancelled or closed with its set had a place, and so had a single
subscription that is cancelled. -/
theorem serves_of_closes (h : r.closes op = some feed) : r.Serves feed := by
  cases op with
  | attach s new => exact .inl ⟨s, h⟩
  | detach s only forget => exact .inl ⟨s, (closes_detach.1 h).1⟩
  | unsubscribe f => exact .inr (contains_directs.1 (closes_unsubscribe.1 h).2)
  | add s unit => cases h
  | remove s unit => cases h
  | subscribe f unit => cases h

namespace Serves

theorem of_eq (h : r.Serves feed) (hs : r'.sets = r.sets) (hd : r'.directs = r.directs) :
    r'.Serves feed := by
  simpa only [Serves, set, hs, hd] using h

theorem putSet (h : r.Serves feed) {s : SetId} {x : UnitSet}
    (hx : (r.set s).sink = some feed → x.sink = some feed) : (r.putSet s x).Serves feed := by
  obtain ⟨t, ht⟩ | hd := h
  · refine .inl ⟨t, ?_⟩
    rw [set_putSet]
    split
    · rename_i hts
      exact hx (hts ▸ ht)
    · exact ht
  · exact .inr hd

theorem join (h : r.Serves feed) (s : SetId) (unit : String) : (r.join s unit).Serves feed := by
  refine h.putSet fun hs => ?_
  unfold UnitSet.join
  split <;> exact hs

theorem addDirect (h : r.Serves feed) (new : FeedId) (unit : String) :
    (r.addDirect new unit).Serves feed := by
  obtain hs | ⟨v, hd⟩ := h
  · exact .inl hs
  · by_cases hf : feed = new
    · exact .inr ⟨unit, by simp [Registry.addDirect, hf]⟩
    · exact .inr ⟨v, by simpa [Registry.addDirect, Table.get?_put, hf] using hd⟩

theorem releaseAll (h : r.Serves feed) (failure : Option Error) (units : List String) :
    (r.releaseAll failure units).1.Serves feed :=
  h.of_eq (sets_releaseAll r failure units) (directs_releaseAll r failure units)

theorem holdAll (h : r.Serves feed) {s : SetId} (hs : (r.set s).sink = none) (new : FeedId)
    (held rest : List String) : (r.holdAll s new held rest).1.Serves feed := by
  induction rest generalizing r held with
  | nil =>
    refine h.putSet fun hf => ?_
    rw [hs] at hf
    cases hf
  | cons unit rest ih =>
    unfold Registry.holdAll
    split
    · exact h
    · exact ih (r := r.hold unit) (h.of_eq rfl rfl) hs _

theorem dues (h : r.Serves feed) (hc : r.closes op ≠ some feed) : (r.dues op).1.Serves feed := by
  cases op with
  | add s unit => exact h
  | attach s new => exact h
  | subscribe f unit => exact h
  | remove s unit =>
    simp only [Registry.dues]
    split
    · exact h.putSet id
    · exact h
  | detach s only forget =>
    simp only [Registry.dues]
    cases hx : r.sets.get? s with
    | none => exact h
    | some x =>
      dsimp only
      rw [Ne, closes_detach, sink_of_get? hx] at hc
      split
      · rename_i hcur
        have hne : x.sink ≠ some feed := fun hs => hc ⟨hs, hcur⟩
        have hout : ({ r with sets := r.sets.erase s } : Registry).Serves feed := by
          obtain ⟨t, ht⟩ | hd := h
          · refine .inl ⟨t, ?_⟩
            rw [set_eraseSet, if_neg]
            · exact ht
            · rintro rfl
              exact hne (sink_of_get? hx ▸ ht)
          · exact .inr hd
        cases forget with
        | true => exact hout
        | false => exact h.putSet fun hs => absurd (sink_of_get? hx ▸ hs) hne
      · exact h
  | unsubscribe f =>
    simp only [Registry.dues]
    cases hx : r.directs.get? f with
    | none => exact h
    | some unit =>
      obtain hs | ⟨v, hd⟩ := h
      · exact .inl hs
      · refine .inr ⟨v, ?_⟩
        rw [Table.get?_erase, if_neg]
        · exact hd
        · rintro rfl
          exact hc (closes_unsubscribe.2 ⟨rfl, contains_directs.2 ⟨v, hd⟩⟩)

/-- The beginning of an operation takes its place from no other feed than the one it closes. -/
theorem begin (h : r.Serves feed) (hc : r.closes op ≠ some feed) :
    (r.begin op).1.Serves feed := by
  have hhold : ∀ unit, (r.hold unit).Serves feed := fun unit => h.of_eq rfl rfl
  cases op with
  | add s unit =>
    simp only [Registry.begin]
    split
    · exact h
    · split
      · split
        · exact h
        · exact (hhold unit).join s unit
      · exact h.join s unit
  | attach s new =>
    have hs : (r.set s).sink ≠ some feed := hc
    simp only [Registry.begin]
    split
    · exact h.putSet fun hf => absurd hf hs
    · refine (h.putSet fun hf => absurd hf hs).holdAll ?_ new [] _
      rw [set_putSet, if_pos rfl]
  | subscribe f unit =>
    simp only [Registry.begin]
    split
    · exact h
    · exact (hhold unit).addDirect f unit
  | remove s unit =>
    rw [begin_remove]
    exact (h.dues hc).releaseAll _ _
  | detach s only forget =>
    rw [begin_detach]
    exact (h.dues hc).releaseAll _ _
  | unsubscribe f =>
    rw [begin_unsubscribe]
    exact (h.dues hc).releaseAll _ _

theorem resume (hw : r.Wired) {call : MatchCall} {pause : Pause} (ha : pause.Awaits r call)
    (h : r.Serves feed) (answer : Except Error Unit) : (r.resume answer pause).1.Serves feed := by
  have hhold : ∀ unit, (r.hold unit).Serves feed := fun unit => h.of_eq rfl rfl
  cases pause with
  | joining s unit =>
    cases answer with
    | ok _ => exact (hhold unit).join s unit
    | error e => exact h
  | subscribing f unit =>
    cases answer with
    | ok _ => exact (hhold unit).addDirect f unit
    | error e => exact h
  | reattaching s new held unit rest =>
    cases answer with
    | ok _ => exact (hhold unit).holdAll (hw.bare s ha.2.1) new _ rest
    | error e => exact h.releaseAll _ held
  | releasing failure rest => cases answer <;> exact h.releaseAll _ rest

end Serves

theorem not_serves_of_sink (hw : r.Wired) {s : SetId} (hs : (r.set s).sink = some feed)
    (hd : r'.directs = r.directs) (hsink : (r'.set s).sink ≠ some feed)
    (ht : ∀ t, t ≠ s → (r'.set t).sink = (r.set t).sink) : ¬r'.Serves feed := by
  rintro (⟨t, hf⟩ | ⟨unit, hf⟩)
  · by_cases hts : t = s
    · exact hsink (hts ▸ hf)
    · exact hts (hw.sinks t s feed (ht t hts ▸ hf) hs)
  · rw [hd, hw.apart s feed hs] at hf
    cases hf

theorem not_serves_dues (hw : r.Wired) {s : SetId} {only : Option FeedId} {forget : Bool}
    (h : r.closes (.detach s only forget) = some feed) :
    ¬(r.dues (.detach s only forget)).1.Serves feed := by
  obtain ⟨hs, hcur⟩ := closes_detach.1 h
  simp only [dues]
  cases hx : r.sets.get? s with
  | none =>
    have hnew : (r.set s).sink = none := by simp [set, hx, UnitSet.new]
    exact absurd (hnew.symm.trans hs) (by simp)
  | some x =>
    dsimp only
    rw [sink_of_get? hx] at hcur
    rw [if_pos hcur]
    cases forget with
    | true =>
      refine not_serves_of_sink hw hs rfl ?_ fun t ht => ?_
      · simp [set_eraseSet, UnitSet.new]
      · simp [set_eraseSet, ht]
    | false =>
      refine not_serves_of_sink hw hs rfl ?_ fun t ht => ?_
      · simp [set_putSet]
      · simp [set_putSet, ht]

theorem not_serves_attach (hw : r.Wired) {s : SetId} {new : FeedId}
    (h : (r.set s).sink = some feed) (hn : new ≠ feed) :
    ¬(r.begin (.attach s new)).1.Serves feed := by
  have hattached : (r.set s).attached = true := by
    cases ha : (r.set s).attached with
    | true => rfl
    | false => exact absurd ((hw.bare s ha).symm.trans h) (by simp)
  simp only [begin, hattached, if_true]
  refine not_serves_of_sink hw h rfl ?_ fun t ht => ?_
  · simp [install, set_putSet, hn]
  · simp [install, set_putSet, ht]

theorem not_serves_begin (hw : r.Wired) (h : r.closes op = some feed)
    (hn : op.newcomer? ≠ some feed) : ¬(r.begin op).1.Serves feed := by
  cases op with
  | attach s new => exact not_serves_attach hw h fun hf => hn (congrArg some hf)
  | detach s only forget =>
    rw [begin_detach]
    exact fun hs => not_serves_dues hw h
      (hs.of_eq (sets_releaseAll _ _ _).symm (directs_releaseAll _ _ _).symm)
  | unsubscribe f =>
    obtain ⟨rfl, hc⟩ := closes_unsubscribe.1 h
    obtain ⟨unit, hd⟩ := contains_directs.1 hc
    rw [begin_unsubscribe]
    simp only [dues, hd]
    rintro (⟨t, ht⟩ | ⟨v, hv⟩)
    · have ht : (r.set t).sink = some f := by simpa only [set, sets_releaseAll] using ht
      exact absurd ((hw.apart t f ht).symm.trans hd) (by simp)
    · rw [directs_releaseAll] at hv
      simp [Table.get?_erase] at hv
  | add s unit => cases h
  | remove s unit => cases h
  | subscribe f unit => cases h

theorem begin_detach_of_stale {s : SetId} (h : (r.set s).sink ≠ some feed) (forget : Bool) :
    r.closes (.detach s (some feed) forget) = none ∧
      r.begin (.detach s (some feed) forget) = (r, .done (.ok ())) := by
  have hcur : ¬isCurrent (r.set s) (some feed) = true := fun hc => h ((isCurrent_some _ _).1 hc)
  constructor
  · simp only [closes, if_neg hcur]
  · simp only [begin]
    cases hx : r.sets.get? s with
    | none => rfl
    | some x =>
      dsimp only
      rw [sink_of_get? hx] at hcur
      rw [if_neg hcur]

end UnitControl.Registry
