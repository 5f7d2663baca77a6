import UnitControl.Table
import Mathlib.Data.List.Perm.Basic

/-!
# The entries of a table

Putting an entry into a table, or erasing one, changes every count of entries by what the old entry
and the new one contribute. In particular no value gets lost: it stays, or it makes room for another
one, or it is the one that was erased.
-/

namespace UnitControl.Table

variable {κ α : Type} [DecidableEq κ]

theorem mem_of_lookup_eq_some {k : κ} {a : α} {es : List (κ × α)} (h : es.lookup k = some a) :
    (k, a) ∈ es := by
  induction es with
  | nil => simp at h
  | cons e es ih =>
    obtain ⟨k', a'⟩ := e
    rw [lookup_cons_ite] at h
    by_cases hk : k = k'
    · simp only [hk, if_true, Option.some.injEq] at h
      simp [hk, h]
    · rw [if_neg hk] at h
      exact List.mem_cons_of_mem _ (ih h)

theorem lookup_eq_some_of_mem {k : κ} {a : α} {es : List (κ × α)} (hd : (es.map Prod.fst).Nodup)
    (h : (k, a) ∈ es) : es.lookup k = some a := by
  induction es with
  | nil => simp at h
  | cons e es ih =>
    obtain ⟨k', a'⟩ := e
    rw [List.map_cons, List.nodup_cons] at hd
    rcases List.mem_cons.1 h with he | he
    · cases he
      simp
    · have hk : k ≠ k' := fun hk => hd.1 (List.mem_map.2 ⟨(k, a), he, hk⟩)
      rw [lookup_cons_ite, if_neg hk]
      exact ih hd.2 he

theorem get?_eq_some_iff {t : Table κ α} {k : κ} {a : α} :
    t.get? k = some a ↔ (k, a) ∈ t.entries :=
  ⟨mem_of_lookup_eq_some, lookup_eq_some_of_mem t.distinct⟩

theorem contains_eq_false_iff {t : Table κ α} {k : κ} : t.contains k = false ↔ t.get? k = none := by
  simp [contains]

theorem contains_of_get? {t : Table κ α} {k : κ} {a : α} (h : t.get? k = some a) :
    t.contains k = true := by
  simp [contains, h]

theorem countP_putEntry (k : κ) (a : α) (p : κ × α → Bool) (es : List (κ × α)) :
    (putEntry k a es).countP p + ((es.lookup k).toList.countP fun b => p (k, b)) =
      es.countP p + (p (k, a)).toNat := by
  induction es with
  | nil => cases h : p (k, a) <;> simp [putEntry, h]
  | cons e es ih =>
    obtain ⟨k', a'⟩ := e
    by_cases hk : k' = k
    · subst hk
      cases h : p (k', a) <;> cases h' : p (k', a') <;> simp [putEntry, h, h']
    · have hk' : k ≠ k' := Ne.symm hk
      rw [lookup_cons_ite, if_neg hk']
      simp only [putEntry, if_neg hk, List.countP_cons]
      omega

theorem countP_put (t : Table κ α) (k : κ) (a : α) (p : κ × α → Bool) :
    (t.put k a).entries.countP p + ((t.get? k).toList.countP fun b => p (k, b)) =
      t.entries.countP p + (p (k, a)).toNat :=
  countP_putEntry k a p t.entries

theorem countP_filter_ne (k : κ) (p : κ × α → Bool) {es : List (κ × α)}
    (hd : (es.map Prod.fst).Nodup) :
    (es.filter fun e => decide (e.1 ≠ k)).countP p +
      ((es.lookup k).toList.countP fun b => p (k, b)) = es.countP p := by
  induction es with
  | nil => simp
  | cons e es ih =>
    obtain ⟨k', a'⟩ := e
    rw [List.map_cons, List.nodup_cons] at hd
    have ih := ih hd.2
    by_cases hk : k' = k
    · subst hk
      have hn := lookup_eq_none_of_not_mem hd.1
      rw [hn] at ih
      rw [List.filter_cons_of_neg (by simp), lookup_cons_ite, if_pos rfl]
      cases h : p (k', a') <;> simp_all
    · have hk' : k ≠ k' := Ne.symm hk
      rw [List.filter_cons_of_pos (by simpa using hk), lookup_cons_ite, if_neg hk']
      simp only [List.countP_cons]
      omega

theorem countP_erase (t : Table κ α) (k : κ) (p : κ × α → Bool) :
    (t.erase k).entries.countP p + ((t.get? k).toList.countP fun b => p (k, b)) =
      t.entries.countP p :=
  countP_filter_ne k p t.distinct

omit [DecidableEq κ] in
theorem ext_entries {t t' : Table κ α} (h : t.entries = t'.entries) : t = t' := by
  cases t
  cases t'
  cases h
  rfl

theorem filter_putEntry (k : κ) (a : α) (es : List (κ × α)) :
    (putEntry k a es).filter (fun e => decide (e.1 ≠ k)) = es.filter fun e => decide (e.1 ≠ k) := by
  induction es with
  | nil => simp [putEntry]
  | cons e es ih =>
    by_cases he : e.1 = k
    · simp [putEntry, he]
    · simp [putEntry, he] at ih ⊢
      exact ih

theorem erase_put_of_none {t : Table κ α} {k : κ} (h : t.get? k = none) (a : α) :
    (t.put k a).erase k = t := by
  refine ext_entries ((filter_putEntry k a t.entries).trans ?_)
  refine List.filter_eq_self.2 fun e he => ?_
  have hk : k ∉ t.keys := fun hm => by
    rw [← contains_iff_mem_keys, contains, h] at hm
    cases hm
  refine decide_eq_true fun hek => hk ?_
  rw [← hek]
  exact List.mem_map_of_mem he

theorem filterMap_erase (t : Table κ α) (f : κ → α → Option α) (k : κ) :
    (t.erase k).filterMap f = (t.filterMap f).erase k := by
  refine ext_entries ?_
  simp only [erase, filterMap, List.filterMap_filter, List.filter_filterMap]
  refine List.filterMap_congr fun e _ => ?_
  by_cases he : e.1 = k
  · cases f e.1 e.2 <;> simp [he, Option.filter]
  · cases f e.1 e.2 <;> simp [he, Option.filter]

theorem filterMap_erase_of_none {t : Table κ α} {f : κ → α → Option α} {k : κ}
    (hk : ∀ a, f k a = none) : (t.erase k).filterMap f = t.filterMap f := by
  refine ext_entries ?_
  simp only [erase, filterMap, List.filterMap_filter]
  refine List.filterMap_congr fun e _ => ?_
  by_cases he : e.1 = k
  · simp [he, hk]
  · simp [he]

theorem filterMap_put {t : Table κ α} {f : κ → α → Option α} {k : κ} {g : α → α}
    (hk : ∀ a, f k a = some (g a)) (a : α) :
    (t.put k a).filterMap f = (t.filterMap f).put k (g a) := by
  refine ext_entries ?_
  simp only [put, filterMap]
  induction t.entries with
  | nil => simp [putEntry, hk]
  | cons e es ih =>
    obtain ⟨k', b⟩ := e
    by_cases he : k' = k
    · subst he
      simp [putEntry, hk]
    · cases hf : f k' b <;> simp [putEntry, he, hf, ih]

omit [DecidableEq κ] in
theorem filterMap_eq_self {t : Table κ α} {f : κ → α → Option α}
    (h : ∀ e ∈ t.entries, f e.1 e.2 = some e.2) : t.filterMap f = t := by
  refine ext_entries ?_
  simp only [filterMap]
  refine (List.filterMap_congr (g := some) fun e he => ?_).trans List.filterMap_some
  rw [h e he]
  rfl

def values (t : Table κ α) : List α := t.entries.map Prod.snd

theorem mem_values_of_get? {t : Table κ α} {k : κ} {a : α} (h : t.get? k = some a) :
    a ∈ t.values :=
  List.mem_map.2 ⟨(k, a), get?_eq_some_iff.1 h, rfl⟩

variable [DecidableEq α]

omit [DecidableEq κ] in
theorem count_values (t : Table κ α) (a : α) :
    t.values.count a = t.entries.countP fun e => e.2 == a := by
  rw [values, List.count, List.countP_map]
  rfl

theorem values_put_perm (t : Table κ α) (k : κ) (a : α) :
    ((t.get? k).toList ++ (t.put k a).values).Perm (a :: t.values) := by
  apply List.perm_iff_count.2
  intro b
  have h := t.countP_put k a fun e => e.2 == b
  rw [List.count_append, List.count_cons, count_values, count_values, List.count]
  cases hab : a == b <;> simp only [hab, Bool.toNat_true, Bool.toNat_false] at h ⊢ <;> simp <;>
    omega

theorem values_erase_perm (t : Table κ α) (k : κ) :
    ((t.get? k).toList ++ (t.erase k).values).Perm t.values := by
  apply List.perm_iff_count.2
  intro b
  have h := t.countP_erase k fun e => e.2 == b
  dsimp only at h
  rw [List.count_append, count_values, count_values, List.count]
  omega

omit [DecidableEq α] in
/-- A list made from the entries of a table has no duplicates if nothing comes from two keys. -/
theorem nodup_filterMap {β : Type} (t : Table κ α) {f : κ × α → Option β}
    (hf : ∀ k a k' a' b, t.get? k = some a → t.get? k' = some a' → f (k, a) = some b →
      f (k', a') = some b → k = k') : (t.entries.filterMap f).Nodup := by
  have hkeys : t.entries.Pairwise fun entry entry' => entry.1 ≠ entry'.1 :=
    List.pairwise_map.1 t.distinct
  refine List.pairwise_filterMap.2 (hkeys.imp_of_mem ?_)
  rintro ⟨k, a⟩ ⟨k', a'⟩ hm hm' hne b hb b' hb' rfl
  exact hne (hf k a k' a' b (get?_eq_some_iff.2 hm) (get?_eq_some_iff.2 hm') hb hb')

end UnitControl.Table
