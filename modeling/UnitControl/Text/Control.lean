/-!
# Control characters

The characters of the Unicode category Cc. A text that holds one is refused for the worst kind it
holds: NUL before the line breaks before the rest.
-/

namespace UnitControl

def isControl (c : Char) : Bool :=
  decide (c.toNat < 0x20 ∨ 0x7F ≤ c.toNat ∧ c.toNat ≤ 0x9F)

inductive ControlFault
  | nul
  | newline
  | other
  deriving DecidableEq, Repr

namespace ControlFault

def message (subject : String) : ControlFault → String
  | nul => subject ++ " must not contain NUL"
  | newline => subject ++ " must not contain newlines"
  | other => subject ++ " must not contain control characters"

/-- The fault for which a text is refused, if there is one. -/
def find? (cs : List Char) : Option ControlFault :=
  if '\x00' ∈ cs then some nul
  else if '\n' ∈ cs ∨ '\r' ∈ cs then some newline
  else if cs.any isControl then some other
  else none

@[simp] theorem find?_nil : find? [] = none := rfl

theorem find?_eq_none_iff (cs : List Char) : find? cs = none ↔ ∀ c ∈ cs, isControl c = false := by
  constructor
  · intro h c hc
    unfold find? at h
    split at h
    · simp at h
    split at h
    · simp at h
    split at h
    · simp at h
    · rename_i hany
      simpa using fun hcc => hany (List.any_eq_true.2 ⟨c, hc, hcc⟩)
  · intro h
    have hnul : '\x00' ∉ cs := fun hc => by simpa [isControl] using h _ hc
    have hlf : '\n' ∉ cs := fun hc => by simpa [isControl] using h _ hc
    have hcr : '\r' ∉ cs := fun hc => by simpa [isControl] using h _ hc
    have hany : cs.any isControl = false := by simpa using h
    simp [find?, hnul, hlf, hcr, hany]

end ControlFault

end UnitControl
