import UnitControl.Label

/-!
# Labels scanned by position

A label is scanned from left to right. The byte at the position of the scan stands for itself, or is
an underscore, which takes the next two bytes along if they are a part of the label, and is not a
spelling otherwise.
-/

namespace UnitControl

namespace Label

/-- What would break off a scan, whatever the label spells. -/
inductive Breach
  | outOfRange
  | insideCharacter
  deriving DecidableEq, Repr

def byteAt (label : String) (i : Nat) : Except Breach UInt8 :=
  match (Bytes.ofText label)[i]? with
  | some b => .ok b
  | none => .error .outOfRange

/-- The bytes from `start` up to `stop` cut out of a label. -/
def slice (label : String) (start stop : Nat) : Except Breach String :=
  if label.utf8ByteSize < stop then .error .outOfRange
  else if h : Bytes.IsBoundary label start ∧ Bytes.IsBoundary label stop then
    .ok (label.extract ⟨⟨start⟩, h.1⟩ ⟨⟨stop⟩, h.2⟩)
  else .error .insideCharacter

/-- Looks first whether there is something to cut out. -/
def slice? (label : String) (start stop : Nat) : Except Breach (Option String) :=
  if Bytes.IsBoundary label start ∧ Bytes.IsBoundary label stop then
    (slice label start stop).map some
  else .ok none

/-- The byte that the two characters after an underscore stand for. -/
def byteOf? (pair : String) : Option UInt8 :=
  match Bytes.ofText pair with
  | [high, low] => pairValue? high low
  | _ => none

/-- The bytes that a label spells from a position on, after those that are read already. -/
def scanFrom (label : String) (i : Nat) (bytes : List UInt8) :
    Except Breach (Option (List UInt8)) :=
  if _h : i < label.utf8ByteSize then do
    let b ← byteAt label i
    if b = underscore then
      match (← slice? label (i + 1) (i + 3)).bind byteOf? with
      | some v => scanFrom label (i + 3) (bytes ++ [v])
      | none => return none
    else scanFrom label (i + 1) (bytes ++ [b])
  else return some bytes
termination_by label.utf8ByteSize - i

def scan (label : String) : Except Breach (Option String) :=
  if label = "_" then .ok (some "")
  else (scanFrom label 0 []).map fun bytes => bytes.bind Bytes.toText?

end Label

end UnitControl
