/-!
# Tables

A finite map that remembers the order in which its keys came. Every operation is described by what
it does to a look-up.
-/

namespace UnitControl

structure Table (κ α : Type) where
  entries : List (κ × α)
  distinct : (entries.map Prod.fst).Nodup
  deriving DecidableEq

namespace Table

variable {κ α β : Type} [DecidableEq κ]

def empty : Table κ α := ⟨[], by simp⟩

instance : Inhabited (Table κ α) := ⟨empty⟩

def get? (t : Table κ α) (k : κ) : Option α := t.entries.lookup k

def contains (t : Table κ α) (k : κ) : Bool := (t.get? k).isSome

def keys (t : Table κ α) : List κ := t.entries.map Prod.fst

def size (t : Table κ α) : Nat := t.entries.length

/-- An entry with a known key takes the place of the old one; any other goes to the end. -/
def putEntry (k : κ) (a : α) : List (κ × α) → List (κ × α)
  | [] => [(k, a)]
  | e :: es => if e.1 = k then (k, a) :: es else e :: putEntry k a es

theorem map_fst_putEntry (k : κ) (a : α) (es : List (κ × α)) :
    (putEntry k a es).map Prod.fst =
      if k ∈ es.map Prod.fst then es.map Prod.fst else es.map Prod.fst ++ [k] := by
  induction es with
  | nil => simp [putEntry]
  | cons e es ih =>
    by_cases h : e.1 = k
    · simp [putEntry, h]
    · have h' : ¬k = e.1 := fun hk => h hk.symm
      by_cases hm : k ∈ es.map Prod.fst <;> simp_all [putEntry]

theorem nodup_putEntry (k : κ) (a : α) {es : List (κ × α)} (h : (es.map Prod.fst).Nodup) :
    ((putEntry k a es).map Prod.fst).Nodup := by
  rw [map_fst_putEntry]
  split
  · exact h
  · rename_i hk
    refine List.nodup_append.2 ⟨h, by simp, ?_⟩
    intro x hx y hy hxy
    simp only [List.mem_singleton] at hy
    exact hk (hy ▸ hxy ▸ hx)

def put (t : Table κ α) (k : κ) (a : α) : Table κ α :=
  ⟨putEntry k a t.entries, nodup_putEntry k a t.distinct⟩

def erase (t : Table κ α) (k : κ) : Table κ α :=
  ⟨t.entries.filter fun e => decide (e.1 ≠ k),
    List.Nodup.sublist (List.filter_sublist.map _) t.distinct⟩

/-- A change of the value under a key; nothing happens where the key is unknown. -/
def modify (t : Table κ α) (k : κ) (f : α → α) : Table κ α :=
  match t.get? k with
  | some a => t.put k (f a)
  | none => t

omit [DecidableEq κ] in
theorem map_fst_filterMap_sublist (f : κ → α → Option β) (es : List (κ × α)) :
    ((es.filterMap fun e => (f e.1 e.2).map fun b => (e.1, b)).map Prod.fst).Sublist
      (es.map Prod.fst) := by
  induction es with
  | nil => simp
  | cons e es ih =>
    cases h : f e.1 e.2 with
    | none => simpa [h] using ih.cons e.1
    | some b => simpa [h] using ih

/-- The entries for which `f` gives a value, with that value. -/
def filterMap (t : Table κ α) (f : κ → α → Option β) : Table κ β :=
  ⟨t.entries.filterMap fun e => (f e.1 e.2).map fun b => (e.1, b),
    List.Nodup.sublist (map_fst_filterMap_sublist f t.entries) t.distinct⟩

/-- The entries of a list put in one after the other, so that of two with one key the later wins. -/
def putAll (t : Table κ α) (es : List (κ × α)) : Table κ α :=
  es.foldl (fun t e => t.put e.1 e.2) t

def ofList (es : List (κ × α)) : Table κ α := empty.putAll es

@[simp] theorem get?_empty (k : κ) : (empty : Table κ α).get? k = none := rfl

theorem lookup_cons_ite (x k : κ) (a : α) (es : List (κ × α)) :
    List.lookup x ((k, a) :: es) = if x = k then some a else es.lookup x := by
  by_cases h : x = k
  · simp [h]
  · have hb : (x == k) = false := by simpa using h
    simp [List.lookup_cons, hb, h]

theorem lookup_putEntry (k : κ) (a : α) (x : κ) (es : List (κ × α)) :
    (putEntry k a es).lookup x = if x = k then some a else es.lookup x := by
  induction es with
  | nil => simp [putEntry, lookup_cons_ite]
  | cons e es ih =>
    obtain ⟨k', a'⟩ := e
    by_cases he : k' = k
    · subst he
      by_cases hx : x = k' <;> simp [putEntry, lookup_cons_ite, hx]
    · by_cases hx : x = k'
      · subst hx
        simp [putEntry, he]
      · simp [putEntry, he, lookup_cons_ite, hx, ih]

theorem get?_put (t : Table κ α) (k : κ) (a : α) (x : κ) :
    (t.put k a).get? x = if x = k then some a else t.get? x :=
  lookup_putEntry k a x t.entries

@[simp] theorem get?_put_self (t : Table κ α) (k : κ) (a : α) : (t.put k a).get? k = some a := by
  simp [get?_put]

theorem lookup_filter_ne (k x : κ) (es : List (κ × α)) :
    (es.filter fun e => decide (e.1 ≠ k)).lookup x = if x = k then none else es.lookup x := by
  induction es with
  | nil => simp
  | cons e es ih =>
    obtain ⟨k', a'⟩ := e
    by_cases he : k' = k
    · rw [List.filter_cons_of_neg (by simp [he]), ih]
      by_cases hx : x = k
      · simp [hx]
      · simp [hx, lookup_cons_ite, he]
    · rw [List.filter_cons_of_pos (by simp [he]), lookup_cons_ite, lookup_cons_ite, ih]
      by_cases hx : x = k
      · subst hx
        have hk : x ≠ k' := Ne.symm he
        simp [hk]
      · simp [hx]

theorem get?_erase (t : Table κ α) (k x : κ) :
    (t.erase k).get? x = if x = k then none else t.get? x :=
  lookup_filter_ne k x t.entries

theorem get?_modify (t : Table κ α) (k : κ) (f : α → α) (x : κ) :
    (t.modify k f).get? x = if x = k then (t.get? x).map f else t.get? x := by
  unfold modify
  by_cases hx : x = k
  · subst hx
    cases h : t.get? x <;> simp [h]
  · cases h : t.get? k <;> simp [hx, get?_put]

theorem lookup_eq_none_of_not_mem {k : κ} {es : List (κ × α)} (h : k ∉ es.map Prod.fst) :
    es.lookup k = none := by
  induction es with
  | nil => rfl
  | cons e es ih =>
    obtain ⟨k', a'⟩ := e
    simp only [List.map_cons, List.mem_cons, not_or] at h
    simp [lookup_cons_ite, h.1, ih h.2]

theorem get?_filterMap (t : Table κ α) (f : κ → α → Option β) (x : κ) :
    (t.filterMap f).get? x = (t.get? x).bind (f x) := by
  obtain ⟨es, hes⟩ := t
  simp only [filterMap, get?]
  induction es with
  | nil => simp
  | cons e es ih =>
    obtain ⟨k, a⟩ := e
    simp only [List.map_cons, List.nodup_cons] at hes
    have ih := ih hes.2
    by_cases hx : x = k
    · subst hx
      cases h : f x a with
      | none =>
        have hn := lookup_eq_none_of_not_mem hes.1
        simpa [h, hn] using ih
      | some b => simp [h]
    · cases h : f k a with
      | none => simpa [h, lookup_cons_ite, hx] using ih
      | some b => simpa [h, lookup_cons_ite, hx] using ih

theorem contains_iff_mem_keys (t : Table κ α) (k : κ) : t.contains k = true ↔ k ∈ t.keys := by
  have h (es : List (κ × α)) : (es.lookup k).isSome = true ↔ k ∈ es.map Prod.fst := by
    induction es with
    | nil => simp
    | cons e es ih =>
      obtain ⟨k', a'⟩ := e
      by_cases hk : k = k' <;> simp [lookup_cons_ite, hk, ih]
  exact h t.entries

@[simp] theorem putAll_nil (t : Table κ α) : t.putAll [] = t := rfl

theorem putAll_cons (t : Table κ α) (e : κ × α) (es : List (κ × α)) :
    t.putAll (e :: es) = (t.put e.1 e.2).putAll es := rfl

end Table

end UnitControl
