import UnitControl.Listing
import UnitControl.Proofs.Table

/-!
# Rebuilding a listing from its changes

Whoever applies the changes of all listings, one after the other, has a view with the units of the
last one. A change that the predicate does not report is missing from the view, and the predicate
sees no difference between the view and the listing, as long as "not changed" can be chained.
-/

namespace UnitControl

namespace Table

variable {κ α : Type} [DecidableEq κ]

theorem get?_putAll (t : Table κ α) (es : List (κ × α)) (k : κ) :
    (t.putAll es).get? k = (es.reverse.lookup k).or (t.get? k) := by
  induction es generalizing t with
  | nil => rfl
  | cons e es ih =>
    rw [putAll_cons, ih, get?_put, List.reverse_cons, List.lookup_append, Option.or_assoc,
      lookup_cons_ite]
    split <;> rfl

theorem get?_putAll_entries (t u : Table κ α) (k : κ) :
    (t.putAll u.entries).get? k = (u.get? k).or (t.get? k) := by
  have hr : u.entries.reverse.lookup k = u.get? k := by
    cases h : u.get? k with
    | some a =>
      apply lookup_eq_some_of_mem
      · rw [List.map_reverse]
        exact (List.reverse_perm _).nodup_iff.2 u.distinct
      · exact List.mem_reverse.2 (get?_eq_some_iff.1 h)
    | none =>
      apply lookup_eq_none_of_not_mem
      rw [List.map_reverse, List.mem_reverse]
      exact fun hk => by simpa [contains, h] using (u.contains_iff_mem_keys k).2 hk
  rw [get?_putAll, hr]

end Table

theorem Changes.get?_apply (changes : Changes) (view : Snapshot) (k : String) :
    (changes.apply view).get? k =
      match changes.get? k with
      | some status => status
      | none => view.get? k := by
  obtain ⟨es, hd⟩ := changes
  simp only [apply, Table.get?]
  induction es generalizing view with
  | nil => rfl
  | cons e es ih =>
    obtain ⟨name, status⟩ := e
    rw [List.map_cons, List.nodup_cons] at hd
    have ih := fun view => ih view hd.2
    rw [List.foldl_cons, ih, Table.lookup_cons_ite]
    by_cases hk : k = name
    · subst hk
      rw [Table.lookup_eq_none_of_not_mem hd.1, if_pos rfl]
      cases status with
      | some s => exact Table.get?_put_self view k s
      | none => exact (Table.get?_erase view k k).trans (if_pos rfl)
    · rw [if_neg hk]
      cases es.lookup k with
      | some s => rfl
      | none =>
        cases status with
        | some s => exact (Table.get?_put view name s k).trans (if_neg hk)
        | none => exact (Table.get?_erase view name k).trans (if_neg hk)

namespace UnitStatus

theorem differs_self (s : UnitStatus) : differs s s = false :=
  (differs_eq_false_iff s s).2 ⟨rfl, rfl, rfl, rfl, rfl⟩

theorem differs_trans (a b c : UnitStatus) (h : differs a b = false) (h' : differs b c = false) :
    differs a c = false := by
  obtain ⟨h₁, h₂, h₃, h₄, h₅⟩ := (differs_eq_false_iff a b).1 h
  obtain ⟨h₁', h₂', h₃', h₄', h₅'⟩ := (differs_eq_false_iff b c).1 h'
  exact (differs_eq_false_iff a c).2
    ⟨h₁.trans h₁', h₂.trans h₂', h₃.trans h₃', h₄.trans h₄', h₅.trans h₅'⟩

end UnitStatus

namespace Snapshot

theorem get?_ofRows (rows : List UnitStatus) (k : String) :
    (ofRows rows).get? k = rows.reverse.find? fun s => k == s.name := by
  rw [ofRows, Table.ofList, Table.get?_putAll, Table.get?_empty, Option.or_none, ← List.map_reverse]
  induction rows.reverse with
  | nil => rfl
  | cons s rest ih =>
    rw [List.map_cons, List.lookup_cons, List.find?_cons, ih]

variable (isChanged : UnitStatus → UnitStatus → Bool) (previous current : Snapshot)

theorem get?_diff_of_gone {k : String} (h : current.get? k = none) :
    (diff isChanged previous current).get? k = if previous.contains k then some none else none := by
  have hc : current.contains k = false := Table.contains_eq_false_iff.2 h
  rw [diff, Table.get?_putAll_entries, reports, losses, Table.get?_filterMap, Table.get?_filterMap,
    h]
  cases hp : previous.get? k with
  | none => simp [Table.contains, hp]
  | some old => simp [Table.contains, hp, h]

theorem get?_diff_of_listed {k : String} {status : UnitStatus} (h : current.get? k = some status) :
    (diff isChanged previous current).get? k =
      match previous.get? k with
      | some old => if isChanged old status then some (some status) else none
      | none => some (some status) := by
  have hc : current.contains k = true := Table.contains_of_get? h
  rw [diff, Table.get?_putAll_entries, reports, losses, Table.get?_filterMap, Table.get?_filterMap,
    h]
  cases hp : previous.get? k with
  | none => simp
  | some old => simp [hc]

/-- The view of a consumer that has applied these messages to an empty one, in their order. -/
def replay (messages : List Changes) : Snapshot :=
  messages.foldl (fun view changes => changes.apply view) .empty

/-- A view has the units of a listing, and what it says of them counts as unchanged. -/
structure Mirrors (view listing : Snapshot) : Prop where
  keys : ∀ k, view.contains k = listing.contains k
  unchanged : ∀ k status listed, view.get? k = some status → listing.get? k = some listed →
    isChanged status listed = false

variable {isChanged} {previous current}

theorem mirrors_empty : Mirrors isChanged .empty .empty :=
  ⟨fun _ => rfl, fun _ _ _ h => by cases h⟩

/-- A unit that is not reported has not changed since the listing before, from which the view could
not be told then: so it cannot now. -/
theorem Mirrors.apply_diff (hrefl : ∀ s, isChanged s s = false)
    (htrans : ∀ a b c, isChanged a b = false → isChanged b c = false → isChanged a c = false)
    {view : Snapshot} (h : Mirrors isChanged view previous) :
    Mirrors isChanged ((diff isChanged previous current).apply view) current := by
  have hget : ∀ k, ((diff isChanged previous current).apply view).get? k = _ :=
    fun k => Changes.get?_apply _ view k
  have hkeys : ∀ k, previous.get? k = none → view.get? k = none := by
    intro k hp
    rw [← Table.contains_eq_false_iff, h.keys, Table.contains_eq_false_iff]
    exact hp
  constructor
  · intro k
    rw [Table.contains, Table.contains, hget]
    cases hc : current.get? k with
    | none =>
      rw [get?_diff_of_gone isChanged previous current hc]
      cases hp : previous.get? k with
      | none => simp [Table.contains, hp, hkeys k hp]
      | some old => simp [Table.contains, hp]
    | some status =>
      rw [get?_diff_of_listed isChanged previous current hc]
      cases hp : previous.get? k with
      | none => rfl
      | some old =>
        cases hold : isChanged old status with
        | true => simp [hold]
        | false =>
          have hv : view.contains k = true := (h.keys k).trans (Table.contains_of_get? hp)
          simpa [hold, Table.contains] using hv
  · intro k status listed hs hl
    rw [hget, get?_diff_of_listed isChanged previous current hl] at hs
    cases hp : previous.get? k with
    | none =>
      rw [hp] at hs
      cases hs
      exact hrefl status
    | some old =>
      cases hold : isChanged old listed with
      | true =>
        simp only [hp, hold, if_true] at hs
        cases hs
        exact hrefl status
      | false =>
        simp only [hp, hold, Bool.false_eq_true, if_false] at hs
        exact htrans _ _ _ (h.unchanged k status old hs hp) hold

theorem length_diffsFrom (previous : Snapshot) (snapshots : List Snapshot) :
    (diffsFrom isChanged previous snapshots).length = snapshots.length := by
  induction snapshots generalizing previous with
  | nil => rfl
  | cons current rest ih => exact congrArg Nat.succ (ih current)

theorem mirrors_diffsFrom (hrefl : ∀ s, isChanged s s = false)
    (htrans : ∀ a b c, isChanged a b = false → isChanged b c = false → isChanged a c = false)
    {view : Snapshot} (h : Mirrors isChanged view previous) {snapshots : List Snapshot} {n : Nat}
    {listing : Snapshot} (hn : snapshots[n]? = some listing) :
    Mirrors isChanged (((diffsFrom isChanged previous snapshots).take (n + 1)).foldl
      (fun view changes => changes.apply view) view) listing := by
  induction snapshots generalizing view previous n with
  | nil => cases hn
  | cons current rest ih =>
    have hc : Mirrors isChanged ((diff isChanged previous current).apply view) current :=
      h.apply_diff hrefl htrans
    cases n with
    | zero =>
      cases hn
      exact hc
    | succ n => exact ih hc hn

theorem mirrors_replay (hrefl : ∀ s, isChanged s s = false)
    (htrans : ∀ a b c, isChanged a b = false → isChanged b c = false → isChanged a c = false)
    {snapshots : List Snapshot} {n : Nat} {listing : Snapshot}
    (hn : snapshots[n]? = some listing) :
    Mirrors isChanged (replay ((diffs isChanged snapshots).take (n + 1))) listing :=
  mirrors_diffsFrom hrefl htrans mirrors_empty hn

theorem Mirrors.get?_eq (hall : ∀ a b, isChanged a b = false → a = b) {view listing : Snapshot}
    (h : Mirrors isChanged view listing) (k : String) : view.get? k = listing.get? k := by
  have hk := h.keys k
  cases hv : view.get? k with
  | none =>
    rw [Table.contains_eq_false_iff.2 hv] at hk
    exact (Table.contains_eq_false_iff.1 hk.symm).symm
  | some status =>
    rw [Table.contains_of_get? hv] at hk
    obtain ⟨listed, hl⟩ := Option.isSome_iff_exists.1 hk.symm
    rw [hl, hall _ _ (h.unchanged k status listed hv hl)]

end Snapshot

end UnitControl
