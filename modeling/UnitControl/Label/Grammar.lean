import UnitControl.Label

/-!
# The grammar of labels

Which bytes a label stands for, said token by token and without a scan.
-/

namespace UnitControl

namespace Label

inductive HexDigit : UInt8 → UInt8 → Prop
  | decimal (n : UInt8) : n < 10 → HexDigit (0x30 + n) n
  | lower (n : UInt8) : n < 6 → HexDigit (0x61 + n) (10 + n)
  | upper (n : UInt8) : n < 6 → HexDigit (0x41 + n) (10 + n)

inductive Token : List UInt8 → UInt8 → Prop
  | self (b : UInt8) : b ≠ underscore → Token [b] b
  | pair {high low h l : UInt8} :
      HexDigit high h → HexDigit low l → Token [underscore, high, low] (16 * h + l)
  | signed {low l : UInt8} : HexDigit low l → Token [underscore, plus, low] l

/-- `Spells ls bs`: the bytes `ls` fall into tokens that stand for the bytes `bs`. -/
inductive Spells : List UInt8 → List UInt8 → Prop
  | nil : Spells [] []
  | token {t : List UInt8} {b : UInt8} {ls bs : List UInt8} :
      Token t b → Spells ls bs → Spells (t ++ ls) (b :: bs)

/-- `SpellsFrom label i bs`: from byte `i` on, the label falls into tokens that stand for the bytes
`bs`. What comes after the underscore of a token is a part of the label. -/
inductive SpellsFrom (label : String) : Nat → List UInt8 → Prop
  | done : SpellsFrom label label.utf8ByteSize []
  | token {i : Nat} {t : List UInt8} {b : UInt8} {bs : List UInt8} :
      Token t b → t <+: (Bytes.ofText label).drop i →
      (∀ pair, t = underscore :: pair →
        Bytes.IsBoundary label (i + 1) ∧ Bytes.IsBoundary label (i + 1 + pair.length)) →
      SpellsFrom label (i + t.length) bs → SpellsFrom label i (b :: bs)

/-- A valid element of an object path: not empty, letters, digits and underscores only, and no
digit in front. -/
def IsElement (label : String) : Prop :=
  ∃ b bs, Bytes.ofText label = b :: bs ∧ isDigit b = false ∧
    ∀ c ∈ b :: bs, isLetter c || isDigit c || c == underscore

end Label

end UnitControl
