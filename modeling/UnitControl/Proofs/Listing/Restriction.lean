import UnitControl.Proofs.Listing

/-!
# Changes of a part of a listing

What a message says about a unit depends on nothing but what the two snapshots say about it. So who
looks at some of the units only gets what everybody else gets, as far as it is about these units.
-/

namespace UnitControl

/-- A table that has all that another one has about these names, and nothing else. -/
def Table.Restricts {α : Type} (keep : String → Bool) (part whole : Table String α) : Prop :=
  ∀ k, part.get? k = if keep k then whole.get? k else none

/-- Of two lists of tables each one restricts the one in the same place. -/
def Table.RestrictEach {α : Type} (keep : String → Bool) (parts wholes : List (Table String α)) :
    Prop :=
  ∀ (n : Nat) part whole, parts[n]? = some part → wholes[n]? = some whole →
    Table.Restricts keep part whole

theorem getElem?_of_isPrefix {α : Type} {l l' : List α} (h : l <+: l') {n : Nat} {a : α}
    (hn : l[n]? = some a) : l'[n]? = some a := by
  obtain ⟨hlt, rfl⟩ := List.getElem?_eq_some_iff.1 hn
  exact List.prefix_iff_getElem?.1 h n hlt

theorem Table.RestrictEach.of_isPrefix {α : Type} {keep : String → Bool}
    {parts parts' wholes wholes' : List (Table String α)} (h : RestrictEach keep parts wholes)
    (hp : parts' <+: parts) (hw : wholes' <+: wholes) : RestrictEach keep parts' wholes' :=
  fun n part whole hpart hwhole =>
    h n part whole (getElem?_of_isPrefix hp hpart) (getElem?_of_isPrefix hw hwhole)

namespace Snapshot

open Table (Restricts RestrictEach)

variable {keep : String → Bool} {isChanged : UnitStatus → UnitStatus → Bool}
  {previous previous' current current' : Snapshot} {snapshots snapshots' : List Snapshot}
  {k : String}

theorem restricts_ofRows (keep : String → Bool) (rows : List UnitStatus) :
    Restricts keep (ofRows (rows.filter fun s => keep s.name)) (ofRows rows) := by
  intro k
  have hname : (fun s : UnitStatus => decide (keep s.name = true ∧ (k == s.name) = true)) =
      fun s => keep k && k == s.name := by
    funext s
    by_cases hk : k = s.name
    · simp [hk]
    · simp [hk]
  rw [get?_ofRows, get?_ofRows, ← List.filter_reverse, List.find?_filter, hname]
  cases keep k <;> simp

theorem diff_congr (hp : previous.get? k = previous'.get? k)
    (hc : current.get? k = current'.get? k) :
    (diff isChanged previous current).get? k = (diff isChanged previous' current').get? k := by
  cases h : current.get? k with
  | none =>
    rw [get?_diff_of_gone _ _ _ h, get?_diff_of_gone _ _ _ (hc.symm.trans h), Table.contains,
      Table.contains, hp]
  | some status =>
    rw [get?_diff_of_listed _ _ _ h, get?_diff_of_listed _ _ _ (hc.symm.trans h), hp]

theorem restricts_diff (hp : Restricts keep previous previous')
    (hc : Restricts keep current current') :
    Restricts keep (diff isChanged previous current) (diff isChanged previous' current') := by
  intro k
  have hp := hp k
  have hc := hc k
  cases hk : keep k with
  | true =>
    rw [hk, if_pos rfl] at hp hc
    exact diff_congr hp hc
  | false =>
    rw [hk, if_neg Bool.false_ne_true] at hp hc
    rw [get?_diff_of_gone _ _ _ hc, Table.contains_eq_false_iff.2 hp]
    rfl

theorem restrictEach_diffsFrom (hp : Restricts keep previous previous')
    (hs : RestrictEach keep snapshots snapshots') :
    RestrictEach keep (diffsFrom isChanged previous snapshots)
      (diffsFrom isChanged previous' snapshots') := by
  induction snapshots generalizing previous previous' snapshots' with
  | nil =>
    intro n part whole hpart
    cases hpart
  | cons current rest ih =>
    cases snapshots' with
    | nil =>
      intro n part whole _ hwhole
      cases hwhole
    | cons current' rest' =>
      have hc : Restricts keep current current' := hs 0 _ _ rfl rfl
      intro n part whole hpart hwhole
      cases n with
      | zero =>
        cases hpart
        cases hwhole
        exact restricts_diff hp hc
      | succ n => exact ih hc (fun n => hs (n + 1)) n part whole hpart hwhole

theorem restrictEach_diffs (hs : RestrictEach keep snapshots snapshots') :
    RestrictEach keep (diffs isChanged snapshots) (diffs isChanged snapshots') :=
  restrictEach_diffsFrom (fun _ => (ite_self _).symm) hs

/-- Each message tells the changes of a snapshot against the one before. -/
theorem getElem?_diffsFrom {n : Nat} {message : Changes}
    (h : (diffsFrom isChanged previous snapshots)[n]? = some message) :
    ∃ before current, (previous :: snapshots)[n]? = some before ∧ snapshots[n]? = some current ∧
      message = diff isChanged before current := by
  induction snapshots generalizing previous n with
  | nil => cases h
  | cons current rest ih =>
    cases n with
    | zero =>
      cases h
      exact ⟨previous, current, rfl, rfl, rfl⟩
    | succ n => exact ih h

theorem get?_of_diff_listed {status : UnitStatus}
    (h : (diff isChanged previous current).get? k = some (some status)) :
    current.get? k = some status := by
  cases hc : current.get? k with
  | none =>
    rw [get?_diff_of_gone _ _ _ hc] at h
    split at h <;> cases h
  | some listed =>
    rw [get?_diff_of_listed _ _ _ hc] at h
    split at h
    · split at h <;> cases h
      rfl
    · cases h
      rfl

theorem contains_of_diff_gone (h : (diff isChanged previous current).get? k = some none) :
    previous.contains k = true := by
  cases hc : current.get? k with
  | none =>
    rw [get?_diff_of_gone _ _ _ hc] at h
    split at h
    · assumption
    · cases h
  | some listed =>
    rw [get?_diff_of_listed _ _ _ hc] at h
    split at h
    · split at h <;> cases h
    · cases h

theorem name_of_get?_ofRows {rows : List UnitStatus} {status : UnitStatus}
    (h : (ofRows rows).get? k = some status) : status.name = k := by
  rw [get?_ofRows] at h
  have hname := List.find?_some h
  exact (beq_iff_eq.1 hname).symm

/-- What the message after some views may tell: a unit under its own name, and the end of a unit
that was in the view before. -/
structure Tells (views : List (List UnitStatus)) (n : Nat) (message : Changes) : Prop where
  listed : ∀ k status, message.get? k = some (some status) → status.name = k
  gone : ∀ k, message.get? k = some none → ∃ before rows, n = before + 1 ∧
    views[before]? = some rows ∧ (ofRows rows).contains k = true

theorem tells_diffs {views : List (List UnitStatus)} {n : Nat} {message : Changes}
    (h : (diffs isChanged (views.map .ofRows))[n]? = some message) : Tells views n message := by
  obtain ⟨before, current, hbefore, hcurrent, rfl⟩ := getElem?_diffsFrom h
  rw [List.getElem?_map, Option.map_eq_some_iff] at hcurrent
  obtain ⟨rows, -, rfl⟩ := hcurrent
  refine ⟨fun k status hk => name_of_get?_ofRows (get?_of_diff_listed hk), fun k hk => ?_⟩
  have hcontains := contains_of_diff_gone hk
  cases n with
  | zero =>
    cases hbefore
    cases hcontains
  | succ n =>
    rw [List.getElem?_cons_succ, List.getElem?_map, Option.map_eq_some_iff] at hbefore
    obtain ⟨rows', hrows', rfl⟩ := hbefore
    exact ⟨n, rows', rfl, hrows', hcontains⟩

end Snapshot

end UnitControl
