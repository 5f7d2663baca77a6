/-!
# Waiting rooms

A row of seats. A newcomer takes the seat that was vacated last, or a new one at the end if none is
vacant; the one who is called first sits lowest. So a latecomer may be called before those who
have waited longer.
-/

namespace UnitControl

structure WaitingRoom (α : Type) where
  seats : List (Option α)
  /-- The empty seats, the one that was vacated last first. -/
  vacant : List Nat
  distinct : vacant.Nodup
  mem_vacant : ∀ i, i ∈ vacant ↔ seats[i]? = some none

namespace WaitingRoom

variable {α : Type}

def empty : WaitingRoom α := ⟨[], [], by simp, by simp⟩

variable (r : WaitingRoom α)

/-- Who is called first. -/
def first? : Option α := r.seats.findSome? id

theorem mem_set_vacant {seats : List (Option α)} {i : Nat} {rest : List Nat}
    (hd : (i :: rest).Nodup) (hv : ∀ j, j ∈ i :: rest ↔ seats[j]? = some none) (a : α) (j : Nat) :
    j ∈ rest ↔ (seats.set i (some a))[j]? = some none := by
  by_cases hj : i = j
  · subst hj
    have hi : i < seats.length := by
      obtain ⟨h, _⟩ := List.getElem?_eq_some_iff.1 ((hv i).1 List.mem_cons_self)
      exact h
    simp [hi, (List.nodup_cons.1 hd).1]
  · rw [List.getElem?_set_ne hj, ← hv j]
    simp [Ne.symm hj]

def enter (a : α) : WaitingRoom α :=
  match hv : r.vacant with
  | [] =>
    { seats := r.seats ++ [some a]
      vacant := []
      distinct := by simp
      mem_vacant := fun i => by
        have h := r.mem_vacant i
        rw [hv] at h
        rcases Nat.lt_trichotomy i r.seats.length with hi | hi | hi
        · simpa [List.getElem?_append_left hi] using h
        · simp [hi]
        · have hn : (r.seats ++ [some a])[i]? = none :=
            List.getElem?_eq_none (by simpa using Nat.succ_le_of_lt hi)
          simp [hn] }
  | i :: rest =>
    { seats := r.seats.set i (some a)
      vacant := rest
      distinct := (List.nodup_cons.1 (hv ▸ r.distinct)).2
      mem_vacant := mem_set_vacant (hv ▸ r.distinct) (fun j => hv ▸ r.mem_vacant j) a }

variable [DecidableEq α]

def contains (a : α) : Bool := r.seats.contains (some a)

theorem getElem?_of_idxOf? {seats : List (Option α)} {a : α} {i : Nat}
    (h : seats.idxOf? (some a) = some i) : seats[i]? = some (some a) := by
  obtain ⟨hi, ha, _⟩ := List.findIdx?_eq_some_iff_getElem.1 h
  simpa [List.getElem?_eq_getElem hi] using ha

def leave (a : α) : WaitingRoom α :=
  match hi : r.seats.idxOf? (some a) with
  | none => r
  | some i =>
    have hs : r.seats[i]? = some (some a) := getElem?_of_idxOf? hi
    { seats := r.seats.set i none
      vacant := i :: r.vacant
      distinct := List.nodup_cons.2 ⟨fun h => by simpa [hs] using (r.mem_vacant i).1 h, r.distinct⟩
      mem_vacant := fun j => by
        by_cases hj : i = j
        · subst hj
          obtain ⟨h, _⟩ := List.getElem?_eq_some_iff.1 hs
          simp [h]
        · rw [List.getElem?_set_ne hj, ← r.mem_vacant j]
          simp [Ne.symm hj] }

end WaitingRoom

end UnitControl
