import UnitControl.Proofs.Listing

/-!
# Changes as a patch

The changes between two snapshots say what has to be done to the first to have the second, and with
a predicate that sees every difference they say no more than that. Two tables are the same map if
their entries are, in whatever order; the order has no influence on the changes or on what becomes
of a view to which they are applied.
-/

namespace UnitControl

namespace Table

variable {κ α : Type} [DecidableEq κ]

theorem mem_keys_iff {t : Table κ α} {k : κ} : k ∈ t.keys ↔ ∃ a, t.get? k = some a := by
  rw [← contains_iff_mem_keys, contains, Option.isSome_iff_exists]

omit [DecidableEq κ] in
theorem nodup_entries (t : Table κ α) : t.entries.Nodup :=
  List.Pairwise.of_map Prod.fst (fun _ _ hne h => hne (congrArg Prod.fst h)) t.distinct

theorem entries_perm_iff {t t' : Table κ α} :
    t.entries.Perm t'.entries ↔ ∀ k, t.get? k = t'.get? k := by
  rw [List.perm_ext_iff_of_nodup t.nodup_entries t'.nodup_entries]
  constructor
  · intro h k
    refine Option.ext fun a => ?_
    rw [get?_eq_some_iff, get?_eq_some_iff]
    exact h (k, a)
  · rintro h ⟨k, a⟩
    rw [← get?_eq_some_iff, ← get?_eq_some_iff, h k]

end Table

namespace Snapshot

/-- Two snapshots differ in a name: one of them lacks it, or its unit counts as changed. -/
def Differ (isChanged : UnitStatus → UnitStatus → Bool) (previous current : Snapshot)
    (k : String) : Prop :=
  previous.contains k ≠ current.contains k ∨
    ∃ old status, previous.get? k = some old ∧ current.get? k = some status ∧
      isChanged old status = true

/-- The changes have an entry for every name in which the snapshots differ, with what the second
one says about it, and no other. So they turn the first into the second, but for what does not count
as changed. -/
structure IsPatch (isChanged : UnitStatus → UnitStatus → Bool) (previous current : Snapshot)
    (changes : Changes) : Prop where
  mem_keys : ∀ k, k ∈ changes.keys ↔ Differ isChanged previous current k
  value : ∀ k v, changes.get? k = some v → v = current.get? k
  contains_apply : ∀ k, (changes.apply previous).contains k = current.contains k
  reported : ∀ k ∈ changes.keys, (changes.apply previous).get? k = current.get? k
  kept : ∀ k, k ∉ changes.keys → (changes.apply previous).get? k = previous.get? k

/-- What tells any two rows apart that are not the same in every field. -/
def anyField (a b : UnitStatus) : Bool := decide (a ≠ b)

variable {isChanged : UnitStatus → UnitStatus → Bool} {previous current : Snapshot} {k : String}

theorem get?_diff_eq_some_iff {v : Option UnitStatus} :
    (diff isChanged previous current).get? k = some v ↔
      Differ isChanged previous current k ∧ v = current.get? k := by
  cases hc : current.get? k with
  | none =>
    rw [get?_diff_of_gone _ _ _ hc]
    cases hp : previous.get? k <;> simp [Differ, Table.contains, hp, hc, @eq_comm _ v]
  | some status =>
    rw [get?_diff_of_listed _ _ _ hc]
    cases hp : previous.get? k with
    | none => simp [Differ, Table.contains, hp, hc, @eq_comm _ v]
    | some old => simp [Differ, Table.contains, hp, hc, @eq_comm _ v]

theorem mem_keys_diff_iff :
    k ∈ (diff isChanged previous current).keys ↔ Differ isChanged previous current k := by
  simp only [Table.mem_keys_iff, get?_diff_eq_some_iff]
  constructor
  · rintro ⟨v, h, -⟩
    exact h
  · exact fun h => ⟨_, h, rfl⟩

theorem get?_diff_of_mem_keys (h : k ∈ (diff isChanged previous current).keys) :
    (diff isChanged previous current).get? k = some (current.get? k) :=
  get?_diff_eq_some_iff.2 ⟨mem_keys_diff_iff.1 h, rfl⟩

theorem get?_diff_of_notMem_keys (h : k ∉ (diff isChanged previous current).keys) :
    (diff isChanged previous current).get? k = none := by
  rw [Table.mem_keys_iff, not_exists] at h
  exact Option.eq_none_iff_forall_ne_some.2 h

theorem contains_eq_of_not_differ (h : ¬ Differ isChanged previous current k) :
    previous.contains k = current.contains k := by
  by_contra hne
  exact h (.inl hne)

theorem isPatch_diff (isChanged : UnitStatus → UnitStatus → Bool) (previous current : Snapshot) :
    IsPatch isChanged previous current (diff isChanged previous current) := by
  have hreported : ∀ k ∈ (diff isChanged previous current).keys,
      ((diff isChanged previous current).apply previous).get? k = current.get? k := by
    intro k hk
    rw [Changes.get?_apply, get?_diff_of_mem_keys hk]
  have hkept : ∀ k, k ∉ (diff isChanged previous current).keys →
      ((diff isChanged previous current).apply previous).get? k = previous.get? k := by
    intro k hk
    rw [Changes.get?_apply, get?_diff_of_notMem_keys hk]
  refine ⟨fun k => mem_keys_diff_iff, fun k v hv => (get?_diff_eq_some_iff.1 hv).2, fun k => ?_,
    hreported, hkept⟩
  by_cases hk : k ∈ (diff isChanged previous current).keys
  · rw [Table.contains, hreported k hk, Table.contains]
  · rw [Table.contains, hkept k hk]
    exact contains_eq_of_not_differ fun h => hk (mem_keys_diff_iff.2 h)

theorem differ_anyField_iff :
    Differ anyField previous current k ↔ previous.get? k ≠ current.get? k := by
  cases hp : previous.get? k <;> cases hc : current.get? k <;>
    simp [Differ, Table.contains, anyField, hp, hc]

theorem get?_eq_of_apply {changes : Changes}
    (h : (changes.apply previous).entries.Perm current.entries)
    (hk : k ∈ (diff anyField previous current).keys) :
    changes.get? k = (diff anyField previous current).get? k := by
  have happly := Table.entries_perm_iff.1 h k
  have hdiffer := differ_anyField_iff.1 (mem_keys_diff_iff.1 hk)
  rw [Changes.get?_apply] at happly
  cases hc : changes.get? k with
  | none =>
    rw [hc] at happly
    exact absurd happly hdiffer
  | some v =>
    rw [hc] at happly
    rw [get?_diff_of_mem_keys hk, ← happly]

theorem apply_diff_anyField :
    ((diff anyField previous current).apply previous).entries.Perm current.entries := by
  have hpatch := isPatch_diff anyField previous current
  refine Table.entries_perm_iff.2 fun k => ?_
  by_cases hk : k ∈ (diff anyField previous current).keys
  · exact hpatch.reported k hk
  · rw [hpatch.kept k hk]
    exact not_not.1 fun hne => hk (mem_keys_diff_iff.2 (differ_anyField_iff.2 hne))

theorem not_apply_erase (hk : k ∈ (diff anyField previous current).keys) :
    ¬ (Changes.apply ((diff anyField previous current).erase k) previous).entries.Perm
      current.entries := by
  intro h
  have he := get?_eq_of_apply h hk
  rw [Table.get?_erase, if_pos rfl, get?_diff_of_mem_keys hk] at he
  cases he

theorem keys_diff_anyField_eq_nil_iff :
    (diff anyField previous current).keys = [] ↔ previous.entries.Perm current.entries := by
  rw [List.eq_nil_iff_forall_not_mem, Table.entries_perm_iff]
  refine forall_congr' fun k => ?_
  rw [mem_keys_diff_iff, differ_anyField_iff, not_not]

variable {previous' current' : Snapshot}

theorem diff_perm (hp : previous'.entries.Perm previous.entries)
    (hc : current'.entries.Perm current.entries) :
    (diff isChanged previous' current').entries.Perm (diff isChanged previous current).entries := by
  refine Table.entries_perm_iff.2 fun k => Option.ext fun v => ?_
  have hp := Table.entries_perm_iff.1 hp k
  have hc := Table.entries_perm_iff.1 hc k
  simp only [get?_diff_eq_some_iff, Differ, Table.contains, hp, hc]

theorem apply_perm {changes changes' : Changes} {view view' : Snapshot}
    (hc : changes'.entries.Perm changes.entries) (hv : view'.entries.Perm view.entries) :
    (changes'.apply view').entries.Perm (changes.apply view).entries := by
  refine Table.entries_perm_iff.2 fun k => ?_
  rw [Changes.get?_apply, Changes.get?_apply, Table.entries_perm_iff.1 hc k,
    Table.entries_perm_iff.1 hv k]

/-- The changes between two snapshots are their exact patch. If every field counts they turn the
first snapshot into the second, no entry can be left out, and there is none exactly if the snapshots
are the same. The order of entries has no influence on the changes or on a view that they are
applied to. -/
theorem diff_exact (isChanged : UnitStatus → UnitStatus → Bool) (previous current : Snapshot) :
    IsPatch isChanged previous current (diff isChanged previous current) ∧
    (((diff anyField previous current).apply previous).entries.Perm current.entries ∧
      (∀ k ∈ (diff anyField previous current).keys,
        ¬ (Changes.apply ((diff anyField previous current).erase k) previous).entries.Perm
          current.entries) ∧
      ((diff anyField previous current).keys = [] ↔ previous.entries.Perm current.entries)) ∧
    ∀ previous' current' : Snapshot, previous'.entries.Perm previous.entries →
      current'.entries.Perm current.entries →
      (diff isChanged previous' current').entries.Perm
          (diff isChanged previous current).entries ∧
        ∀ changes : Changes,
          changes.entries.Perm (diff isChanged previous current).entries →
          (changes.apply previous').entries.Perm
            ((diff isChanged previous current).apply previous).entries :=
  ⟨isPatch_diff isChanged previous current,
    ⟨apply_diff_anyField, fun _ => not_apply_erase, keys_diff_anyField_eq_nil_iff⟩,
    fun _ _ hp hc => ⟨diff_perm hp hc, fun _ hchanges => apply_perm hchanges hp⟩⟩

end Snapshot

end UnitControl
