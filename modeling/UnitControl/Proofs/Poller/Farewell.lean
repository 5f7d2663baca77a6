import UnitControl.Proofs.Poller.Restriction

/-!
# Pollers whose set is emptied

When a set is found empty for the first time, its poller tells that every unit is gone that it saw
in the listing before. As long as the set stays empty, the messages that follow say nothing.
-/

namespace UnitControl

namespace Snapshot

variable {isChanged : UnitStatus → UnitStatus → Bool} {seen rest : List (List UnitStatus)}
  {messages messages' : List Changes} {k : String}

theorem contains_ofRows {rows : List UnitStatus} :
    (ofRows rows).contains k = true ↔ k ∈ rows.map UnitStatus.name := by
  rw [Table.contains, get?_ofRows, List.find?_isSome, List.mem_map]
  simp only [List.mem_reverse, beq_iff_eq, eq_comm (a := k)]

theorem diffsFrom_append (previous : Snapshot) (l₁ l₂ : List Snapshot) :
    diffsFrom isChanged previous (l₁ ++ l₂) =
      diffsFrom isChanged previous l₁ ++ diffsFrom isChanged (l₁.getLast?.getD previous) l₂ := by
  induction l₁ generalizing previous with
  | nil => rfl
  | cons current rest ih =>
    rw [List.cons_append, diffsFrom, diffsFrom, ih, List.cons_append, List.getLast?_cons]
    rfl

/-- The messages after these views tell that the units of the last one are gone, and then
nothing. -/
structure TakesLeave (seen : List (List UnitStatus)) (messages : List Changes) : Prop where
  gone : ∀ message, messages[seen.length]? = some message → ∀ k, message.get? k =
    if k ∈ (seen.getLast?.getD []).map UnitStatus.name then some none else none
  silent : ∀ n message, seen.length < n → messages[n]? = some message → message = .empty

theorem TakesLeave.of_isPrefix (h : TakesLeave seen messages') (hp : messages <+: messages') :
    TakesLeave seen messages where
  gone message hm := h.gone message (getElem?_of_isPrefix hp hm)
  silent n message hn hm := h.silent n message hn (getElem?_of_isPrefix hp hm)

theorem eq_empty_of_mem_diffsFrom (hrest : ∀ rows ∈ rest, rows = []) {message : Changes}
    (hm : message ∈ diffsFrom isChanged .empty (rest.map ofRows)) : message = .empty := by
  induction rest with
  | nil => cases hm
  | cons rows rest ih =>
    obtain ⟨rfl, htail⟩ := List.forall_mem_cons.1 hrest
    obtain rfl | hm := List.mem_cons.1 hm
    · rfl
    · exact ih htail hm

theorem takesLeave_diffs (isChanged : UnitStatus → UnitStatus → Bool)
    (seen : List (List UnitStatus)) (hrest : ∀ rows ∈ rest, rows = []) :
    TakesLeave seen (diffs isChanged ((seen ++ rest).map ofRows)) := by
  let last : Snapshot := (seen.map ofRows).getLast?.getD .empty
  have hlast (k : String) :
      last.contains k = true ↔ k ∈ (seen.getLast?.getD []).map UnitStatus.name := by
    rw [← contains_ofRows]
    cases h : seen.getLast? with
    | none => simp only [last, List.getLast?_map, h]; rfl
    | some rows => simp only [last, List.getLast?_map, h]; rfl
  have hlength : (diffsFrom isChanged .empty (seen.map ofRows)).length = seen.length := by
    rw [length_diffsFrom, List.length_map]
  have hsplit : diffs isChanged ((seen ++ rest).map ofRows) =
      diffsFrom isChanged .empty (seen.map ofRows) ++
        diffsFrom isChanged last (rest.map ofRows) := by
    rw [diffs, List.map_append, diffsFrom_append]
  rw [hsplit]
  refine ⟨fun message hm k => ?_, fun n message hn hm => ?_⟩
  · rw [← hlength, List.getElem?_append_right (Nat.le_refl _), Nat.sub_self] at hm
    cases rest with
    | nil => cases hm
    | cons rows rest =>
      obtain rfl := hrest rows List.mem_cons_self
      cases hm
      rw [get?_diff_of_gone isChanged last _ rfl]
      simp only [hlast]
  · obtain ⟨m, hm', hn'⟩ : ∃ m, (diffsFrom isChanged last (rest.map ofRows))[m]? = some message ∧
        m ≠ 0 := by
      rw [← hlength] at hn
      rw [List.getElem?_append_right (Nat.le_of_lt hn)] at hm
      exact ⟨_, hm, Nat.sub_ne_zero_of_lt hn⟩
    obtain ⟨m, rfl⟩ := Nat.exists_eq_succ_of_ne_zero hn'
    cases rest with
    | nil => cases hm'
    | cons rows rest =>
      obtain ⟨rfl, htail⟩ := List.forall_mem_cons.1 hrest
      have hm' : (diffsFrom isChanged .empty (rest.map ofRows))[m]? = some message := hm'
      exact eq_empty_of_mem_diffsFrom htail (List.mem_of_getElem? hm')

end Snapshot

namespace Scope

theorem length_views_membersOf {listings : List (List UnitStatus)}
    {memberships : List (List String)} (h : memberships.length ≤ listings.length) (s : SetId) :
    ((membersOf s).views listings memberships).length = memberships.length := by
  rw [views, List.length_zipWith, Nat.min_eq_right h]

theorem views_append_of_emptied {listings : List (List UnitStatus)}
    {memberships memberships' : List (List String)} (h : memberships.length ≤ listings.length)
    (listings' : List (List UnitStatus)) (hempty : ∀ members ∈ memberships', members = [])
    (s : SetId) :
    ∃ rest, (membersOf s).views (listings ++ listings') (memberships ++ memberships') =
      (membersOf s).views listings memberships ++ rest ∧ ∀ rows ∈ rest, rows = [] := by
  let looked := listings.take memberships.length
  let left := listings.drop memberships.length
  have hlooked : looked.length = memberships.length := List.length_take_of_le h
  have hlistings : listings = looked ++ left := (List.take_append_drop _ _).symm
  let look := fun rows members => (membersOf s).rows members rows
  refine ⟨List.zipWith look (left ++ listings') memberships', ?_, fun rows hm => ?_⟩
  · have hseen : (membersOf s).views listings memberships =
        List.zipWith look looked memberships := by
      calc List.zipWith look listings memberships
        _ = List.zipWith look (looked ++ left) (memberships ++ []) := by
          rw [← hlistings, List.append_nil]
        _ = List.zipWith look looked memberships ++ List.zipWith look left [] :=
          List.zipWith_append hlooked
        _ = List.zipWith look looked memberships := by
          rw [List.zipWith_nil_right, List.append_nil]
    rw [hseen, views, hlistings, List.append_assoc, List.zipWith_append hlooked]
  · obtain ⟨n, hn⟩ := List.mem_iff_getElem?.1 hm
    obtain ⟨listing, members, -, hmembers, rfl⟩ := List.getElem?_zipWith_eq_some.1 hn
    rw [hempty members (List.mem_of_getElem? hmembers)]
    exact List.filter_eq_nil_iff.2 (by simp)

end Scope

namespace Poller

variable {p : Poller} {interval : Duration} {capacity : Nat}
  {isChanged : UnitStatus → UnitStatus → Bool} {s : SetId} {before after : List Event}

theorem issued_takesLeave
    (h : (start interval capacity isChanged (.membersOf s)).run (before ++ after) = some p)
    (hempty : ∀ members ∈ memberships after, members = []) :
    let messages := (start interval capacity isChanged (.membersOf s)).issued .values
      (before ++ after) p
    Snapshot.TakesLeave ((Scope.membersOf s).views (listings before) (memberships before))
        messages ∧
      (p.feed.listening .values = true →
        messages.length = (memberships (before ++ after)).length) := by
  obtain ⟨p₁, h₁, -⟩ := Option.bind_eq_some_iff.1 ((run_append _ _ _).symm.trans h)
  have hlooked {events : List Event} {p' : Poller}
      (hr : (start interval capacity isChanged (.membersOf s)).run events = some p') :
      (memberships events).length ≤ (listings events).length := by
    have hu := run_unscoped hr rfl
    exact Nat.le_of_add_right_le (Nat.le_of_eq (hu.symm.trans (Nat.zero_add _)))
  have hlistings : listings (before ++ after) = listings before ++ listings after :=
    List.filterMap_append
  have hmemberships : memberships (before ++ after) = memberships before ++ memberships after :=
    List.filterMap_append
  obtain ⟨hissued, hall⟩ := issued_changes h
  obtain ⟨rest, hviews, hrest⟩ := Scope.views_append_of_emptied (hlooked h₁)
    (listings after) hempty s
  refine ⟨?_, fun hl => ?_⟩
  · rw [hlistings, hmemberships, hviews] at hissued
    exact (Snapshot.takesLeave_diffs isChanged _ hrest).of_isPrefix hissued
  · rw [hall hl, Snapshot.diffs, Snapshot.length_diffsFrom, List.length_map,
      Scope.length_views_membersOf (hlooked h)]

end Poller

end UnitControl
