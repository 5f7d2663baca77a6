import UnitControl.Bus.MatchRule

/-!
# Reading match rules

A rule is a list of items `key='value'` with a comma between two of them. A value ends at the next
apostrophe, and nothing inside the apostrophes is special.
-/

namespace UnitControl

namespace MatchRule

/-- The characters up to the first `stop`, and those after it. -/
def splitAt? (stop : Char) : List Char → Option (List Char × List Char)
  | [] => none
  | c :: cs =>
    if c = stop then some ([], cs)
    else (splitAt? stop cs).map fun r => (c :: r.1, r.2)

theorem length_lt_of_splitAt? {stop : Char} {cs l r : List Char}
    (h : splitAt? stop cs = some (l, r)) : r.length < cs.length := by
  induction cs generalizing l with
  | nil => simp [splitAt?] at h
  | cons c cs ih =>
    unfold splitAt? at h
    split at h
    · simp only [Option.some.injEq, Prod.mk.injEq] at h
      simp [← h.2]
    · obtain ⟨⟨l', r'⟩, hs, he⟩ := Option.map_eq_some_iff.1 h
      simp only [Prod.mk.injEq] at he
      have := ih (l := l') (by rw [hs, he.2])
      simp only [List.length_cons]
      omega

/-- One item and what follows it. -/
def readItem (cs : List Char) : Option ((String × String) × List Char) :=
  match splitAt? '=' cs with
  | some (key, '\'' :: rest) =>
    (splitAt? '\'' rest).map fun r => ((String.ofList key, String.ofList r.1), r.2)
  | _ => none

theorem length_lt_of_readItem {cs r : List Char} {i : String × String}
    (h : readItem cs = some (i, r)) : r.length < cs.length := by
  unfold readItem at h
  split at h
  · rename_i key rest hs
    obtain ⟨⟨l', r'⟩, hr, he⟩ := Option.map_eq_some_iff.1 h
    simp only [Prod.mk.injEq] at he
    have h₁ := length_lt_of_splitAt? hs
    have h₂ := length_lt_of_splitAt? hr
    simp only [List.length_cons] at h₁
    rw [← he.2]
    omega
  · simp at h

def readItems (cs : List Char) : Option (List (String × String)) :=
  match _h : readItem cs with
  | some (i, []) => some [i]
  | some (i, ',' :: rest) => (readItems rest).map (i :: ·)
  | _ => none
termination_by cs.length
decreasing_by
  have := length_lt_of_readItem _h
  simp only [List.length_cons] at this
  omega

def read (text : String) : Option (List (String × String)) := readItems text.toList

end MatchRule

end UnitControl
