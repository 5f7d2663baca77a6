import UnitControl.Proofs.Registry.Sinks

/-!
# Who is to get what

A signal is announced to subscribers as an update of one unit, a signal that cannot be decoded as an
error, and any other signal not at all. The targets of a parcel are the feeds that are entitled to
it, each of them once.
-/

namespace UnitControl

/-- What subscribers are to learn of an item of the signal stream. -/
inductive Announces : Except Error Signal → Parcel Update → Prop
  | created (unit path : String) :
      Announces (.ok (.unitNew unit path)) (.value ⟨unit, .empty⟩)
  | changed {path unit : String} (changed : Properties) (invalidated : List String)
      (h : UnitPath.toName? path = some unit) :
      Announces (.ok (.propertiesChanged path "org.freedesktop.systemd1.Unit" changed invalidated))
        (.value ⟨unit, changed⟩)
  | fault (err : Error) : Announces (.error err) (.fault err)

/-- The parcel that the dispatcher makes of an item. -/
def Signal.parcel? : Except Error Signal → Option (Parcel Update)
  | .ok signal => signal.update?.map .value
  | .error err => some (.fault err)

theorem Signal.parcel?_eq_some_iff {item : Except Error Signal} {parcel : Parcel Update} :
    Signal.parcel? item = some parcel ↔ Announces item parcel := by
  constructor
  · intro h
    cases item with
    | error err =>
      cases h
      exact .fault err
    | ok signal =>
      obtain ⟨u, hu, rfl⟩ := Option.map_eq_some_iff.1 h
      cases signal with
      | jobRemoved id job unit result => cases hu
      | other interface member => cases hu
      | unitNew unit path =>
        cases hu
        exact .created unit path
      | propertiesChanged path interface changed invalidated =>
        simp only [update?] at hu
        split at hu
        · rename_i hi
          subst hi
          obtain ⟨unit, hp, rfl⟩ := Option.map_eq_some_iff.1 hu
          exact .changed changed invalidated hp
        · cases hu
  · intro h
    cases h with
    | created unit path => rfl
    | changed changed invalidated hp => simp [parcel?, update?, unitInterface, hp]
    | fault err => rfl

namespace Registry

/-- An update is for the sinks of the sets that have the unit and for the subscriptions of the unit,
an error for all sinks. -/
def Entitled (r : Registry) (parcel : Parcel Update) (feed : FeedId) : Prop :=
  match parcel with
  | .value u => (∃ s, u.unit ∈ r.members s ∧ (r.set s).sink = some feed) ∨
      r.directs.get? feed = some u.unit
  | .fault _ => ∃ s, (r.set s).sink = some feed

theorem Entitled.serves {r : Registry} {parcel : Parcel Update} {feed : FeedId}
    (h : r.Entitled parcel feed) : r.Serves feed := by
  cases parcel with
  | value u => exact h.imp (fun ⟨s, _, hs⟩ => ⟨s, hs⟩) fun hd => ⟨u.unit, hd⟩
  | fault err => exact .inl h

theorem exists_sink_iff (r : Registry) (p : UnitSet → Prop) (feed : FeedId) :
    (∃ entry ∈ r.sets.entries, p entry.2 ∧ entry.2.sink = some feed) ↔
      ∃ s, p (r.set s) ∧ (r.set s).sink = some feed := by
  constructor
  · rintro ⟨⟨s, x⟩, hm, hp, hx⟩
    have hs : r.set s = x := by rw [set, Table.get?_eq_some_iff.2 hm, Option.getD_some]
    exact ⟨s, hs ▸ hp, hs ▸ hx⟩
  · rintro ⟨s, hp, hx⟩
    cases hg : r.sets.get? s with
    | none =>
      rw [set, hg] at hx
      cases hx
    | some x =>
      have hs : r.set s = x := by rw [set, hg, Option.getD_some]
      exact ⟨(s, x), Table.get?_eq_some_iff.1 hg, hs ▸ hp, hs ▸ hx⟩

theorem mem_targets {r : Registry} {parcel : Parcel Update} {feed : FeedId} :
    feed ∈ r.targets parcel ↔ r.Entitled parcel feed := by
  cases parcel with
  | value u =>
    have hsets := exists_sink_iff r (fun x => u.unit ∈ x.members) feed
    have hdirects : (∃ entry ∈ r.directs.entries, entry.2 = u.unit ∧ entry.1 = feed) ↔
        r.directs.get? feed = some u.unit := by
      rw [Table.get?_eq_some_iff]
      exact ⟨fun ⟨⟨_, _⟩, hm, hu, hf⟩ => hf ▸ hu ▸ hm, fun hm => ⟨_, hm, rfl, rfl⟩⟩
    simp only [targets, Entitled, members, List.mem_append, List.mem_filterMap,
      Option.ite_none_right_eq_some, Option.some.injEq, hsets, hdirects]
  | fault err =>
    have hsets := exists_sink_iff r (fun _ => True) feed
    simpa only [targets, Entitled, List.mem_filterMap, true_and] using hsets

theorem Wired.nodup_targets {r : Registry} (h : r.Wired) (parcel : Parcel Update) :
    (r.targets parcel).Nodup := by
  have hsink {s : SetId} {x : UnitSet} {feed : FeedId} (hs : r.sets.get? s = some x)
      (hx : x.sink = some feed) : (r.set s).sink = some feed := by
    rw [set, hs]
    exact hx
  cases parcel with
  | fault err =>
    refine Table.nodup_filterMap r.sets fun s x t y feed hs ht hx hy => ?_
    exact h.sinks s t feed (hsink hs hx) (hsink ht hy)
  | value u =>
    refine List.nodup_append.2 ⟨?_, ?_, ?_⟩
    · refine Table.nodup_filterMap r.sets fun s x t y feed hs ht hx hy => ?_
      simp only [Option.ite_none_right_eq_some] at hx hy
      exact h.sinks s t feed (hsink hs hx.2) (hsink ht hy.2)
    · refine Table.nodup_filterMap r.directs fun feed v feed' v' f hd hd' hf hf' => ?_
      simp only [Option.ite_none_right_eq_some, Option.some.injEq] at hf hf'
      exact hf.2.trans hf'.2.symm
    · rintro feed hs feed' hd rfl
      simp only [List.mem_filterMap, Option.ite_none_right_eq_some, Option.some.injEq] at hs hd
      obtain ⟨⟨s, x⟩, hm, -, hx⟩ := hs
      obtain ⟨⟨f, v⟩, hm', -, rfl⟩ := hd
      have hnone := h.apart s f (hsink (Table.get?_eq_some_iff.2 hm) hx)
      rw [Table.get?_eq_some_iff.2 hm'] at hnone
      cases hnone

end Registry

end UnitControl
