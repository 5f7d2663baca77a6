import UnitControl.Text.Bytes

/-!
# Object path labels

A label spells a text with ASCII letters, digits and underscores. A letter, or a digit that is not
the first byte, stands for itself; every other byte is an underscore and its two hexadecimal
digits, and the empty text is a lone underscore.
-/

namespace UnitControl

namespace Label

def underscore : UInt8 := 0x5F

def plus : UInt8 := 0x2B

def isDigit (b : UInt8) : Bool := decide (0x30 ≤ b ∧ b ≤ 0x39)

def isLetter (b : UInt8) : Bool := decide (0x41 ≤ b ∧ b ≤ 0x5A ∨ 0x61 ≤ b ∧ b ≤ 0x7A)

/-- Whether a byte stands for itself, at the start of a label or after it. -/
def isPlain (start : Bool) (b : UInt8) : Bool := isLetter b || (!start && isDigit b)

/-- The lower-case hexadecimal digit of a value below 16. -/
def hexDigit (n : UInt8) : UInt8 := if n < 10 then 0x30 + n else 0x57 + n

def spellByte (start : Bool) (b : UInt8) : List UInt8 :=
  if isPlain start b then [b] else [underscore, hexDigit (b / 16), hexDigit (b % 16)]

def spell : List UInt8 → List UInt8
  | [] => [underscore]
  | b :: bs => spellByte true b ++ bs.flatMap (spellByte false)

/-- Labels are ASCII, so each byte is a character of its own. -/
def escape (text : String) : String :=
  String.ofList ((spell (Bytes.ofText text)).map fun b => Char.ofUInt8 b)

/-- The value of a hexadecimal digit of either case. -/
def hexValue? (b : UInt8) : Option UInt8 :=
  if 0x30 ≤ b ∧ b ≤ 0x39 then some (b - 0x30)
  else if 0x61 ≤ b ∧ b ≤ 0x66 then some (b - 0x57)
  else if 0x41 ≤ b ∧ b ≤ 0x46 then some (b - 0x37)
  else none

/-- The byte that two characters after an underscore stand for. A plus sign in front of a single
digit is read as well as two digits. -/
def pairValue? (high low : UInt8) : Option UInt8 :=
  if high = plus then hexValue? low
  else
    match hexValue? high, hexValue? low with
    | some h, some l => some (16 * h + l)
    | _, _ => none

def read : List UInt8 → Option (List UInt8)
  | [] => some []
  | b :: bs =>
    if b = underscore then
      match bs with
      | high :: low :: rest =>
        match pairValue? high low with
        | some v => (read rest).map (v :: ·)
        | none => none
      | _ => none
    else (read bs).map (b :: ·)

/-- The text that a label spells. -/
def unescape (label : String) : Option String :=
  if label = "_" then some "" else (read (Bytes.ofText label)).bind Bytes.toText?

@[simp] theorem read_nil : read [] = some [] := by rw [read]

theorem read_plain {b : UInt8} (bs : List UInt8) (h : b ≠ underscore) :
    read (b :: bs) = (read bs).map (b :: ·) := by
  rw [read.eq_def]
  simp [h]

theorem read_pair (high low : UInt8) (bs : List UInt8) :
    read (underscore :: high :: low :: bs) =
      (pairValue? high low).bind fun v => (read bs).map (v :: ·) := by
  rw [read, if_pos rfl]
  cases pairValue? high low <;> simp

end Label

end UnitControl
