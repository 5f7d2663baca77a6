import UnitControl.Bus.Value
import UnitControl.Text.Bytes

/-!
# Bodies as bytes

How the values of a body are laid out one after the other. Each begins at a multiple of its
alignment, counted from the start of the body; numbers have their least significant byte first; a
text has its length before it and a zero byte behind it.
-/

namespace UnitControl

namespace Wire

def roundUp (n alignment : Nat) : Nat := n + (alignment - n % alignment) % alignment

/-- Zero bytes up to a multiple of the alignment, and then what is laid out from there. -/
def aligned (alignment start : Nat) (f : Nat → List UInt8) : List UInt8 :=
  let start' := roundUp start alignment
  List.replicate (start' - start) 0 ++ f start'

/-- Items one after the other, each laid out from where it begins. -/
def inTurn {α : Type} (f : Nat → α → List UInt8) (start : Nat) : List α → List UInt8
  | [] => []
  | a :: rest =>
    let bytes := f start a
    bytes ++ inTurn f (start + bytes.length) rest

def text (start : Nat) (s : String) : List UInt8 :=
  aligned 4 start fun _ =>
    let bytes := Bytes.ofText s
    Bytes.ofNat 4 bytes.length ++ bytes ++ [0]

def signature (s : String) : List UInt8 :=
  let bytes := Bytes.ofText s
  UInt8.ofNat bytes.length :: bytes ++ [0]

/-- The length of an array counts the bytes from its first element on. -/
def array (alignment start : Nat) (f : Nat → List UInt8) : List UInt8 :=
  aligned 4 start fun start =>
    let first := roundUp (start + 4) alignment
    let bytes := f first
    Bytes.ofNat 4 bytes.length ++ List.replicate (first - (start + 4)) 0 ++ bytes

def number (width start n : Nat) : List UInt8 := aligned width start fun _ => Bytes.ofNat width n

def row (start : Nat) (r : UnitRow) : List UInt8 :=
  aligned 8 start fun start =>
    let texts :=
      inTurn text start [r.name, r.description, r.load, r.active, r.sub, r.followed, r.path]
    let texts := texts ++ number 4 (start + texts.length) r.jobId
    texts ++ inTurn text (start + texts.length) [r.jobType, r.jobPath]

end Wire

namespace Value

open Wire

mutual

/-- The type of a value, as a signature spells it. -/
def code : Value → String
  | byte _ => "y"
  | bool _ => "b"
  | int16 _ => "n"
  | uint16 _ => "q"
  | int32 _ => "i"
  | uint32 _ => "u"
  | int64 _ => "x"
  | uint64 _ => "t"
  | double _ => "d"
  | string _ => "s"
  | path _ => "o"
  | signature _ => "g"
  | variant _ => "v"
  | strings _ => "as"
  | paths _ => "ao"
  | uints _ => "au"
  | textMap _ => "a{ss}"
  | variantMap _ => "a{sv}"
  | struct fields => "(" ++ codes fields ++ ")"
  | rows _ => "a(ssssssouso)"

def codes : List Value → String
  | [] => ""
  | v :: vs => v.code ++ codes vs

end

mutual

/-- The bytes of a value, for which there is room from `start` on. -/
def wire (start : Nat) : Value → List UInt8
  | byte n => [n]
  | bool b => number 4 start (if b then 1 else 0)
  | int16 n => number 2 start n.toUInt16.toNat
  | uint16 n => number 2 start n.toNat
  | int32 n => number 4 start n.toUInt32.toNat
  | uint32 n => number 4 start n.toNat
  | int64 n => number 8 start n.toUInt64.toNat
  | uint64 n | double n => number 8 start n.toNat
  | string s | path s => text start s
  | signature s => Wire.signature s
  | variant v =>
    let type := Wire.signature v.code
    type ++ v.wire (start + type.length)
  | strings items | paths items => array 4 start fun first => inTurn text first items
  | uints items => array 4 start fun _ => items.flatMap fun n => Bytes.ofNat 4 n.toNat
  | textMap entries =>
    array 8 start fun first =>
      inTurn (fun start e => aligned 8 start fun start => inTurn text start [e.1, e.2]) first
        entries
  | variantMap entries => array 8 start fun first => wireEntries first entries
  | struct fields => aligned 8 start fun start => wireAll start fields
  | rows items => array 8 start fun first => inTurn row first items

def wireAll (start : Nat) : List Value → List UInt8
  | [] => []
  | v :: vs =>
    let bytes := v.wire start
    bytes ++ wireAll (start + bytes.length) vs

def wireEntries (start : Nat) : List (String × Value) → List UInt8
  | [] => []
  | (key, v) :: entries =>
    let bytes := aligned 8 start fun start =>
      let opening := text start key ++ Wire.signature v.code
      opening ++ v.wire (start + opening.length)
    bytes ++ wireEntries (start + bytes.length) entries

end

end Value

namespace Body

def wire (body : Body) : List UInt8 := Value.wireAll 0 body

/-- The text that a reader finds in a body who takes it to begin with one, of whatever type it is.
The byte behind the text is not looked at. -/
def leadingText? (body : Body) : Option String :=
  let bytes := wire body
  let length := Bytes.toNat (bytes.take 4)
  let chars := (bytes.drop 4).take length
  if 4 + length ≤ bytes.length ∧ 0 ∉ chars then Bytes.toText? chars else none

end Body

end UnitControl
