import UnitControl.Bus.Identifier
import UnitControl.UnitStatus

/-!
# Typed values on the bus

The values of which the bodies of messages consist. A value shows its type, so a body is decoded by
matching it against the values that are expected. A reader refuses a body that holds an unsound
text: a text with a NUL, or an object path that is none.
-/

namespace UnitControl

inductive Value
  | byte (n : UInt8)
  | bool (b : Bool)
  | int16 (n : Int16)
  | uint16 (n : UInt16)
  | int32 (n : Int32)
  | uint32 (n : UInt32)
  | int64 (n : Int64)
  | uint64 (n : UInt64)
  /-- A double, by its bits. -/
  | double (bits : UInt64)
  | string (s : String)
  | path (s : String)
  | signature (s : String)
  | variant (v : Value)
  | strings (items : List String)
  | paths (items : List String)
  | uints (items : List UInt32)
  | textMap (entries : List (String × String))
  | variantMap (entries : List (String × Value))
  | struct (fields : List Value)
  | rows (items : List UnitRow)

instance : Inhabited Value := ⟨.bool false⟩

abbrev Body := List Value

/-- Whether a reader takes the text. -/
def isSoundText (s : String) : Bool := !s.toList.contains '\x00'

def UnitRow.isSound (r : UnitRow) : Bool :=
  [r.name, r.description, r.load, r.active, r.sub, r.followed, r.jobType].all isSoundText &&
    [r.path, r.jobPath].all Identifier.isPath

namespace Value

mutual

def isSound : Value → Bool
  | byte _ | bool _ | int16 _ | uint16 _ | int32 _ | uint32 _ | int64 _ | uint64 _ | double _
  | uints _ => true
  | string s | signature s => isSoundText s
  | path s => Identifier.isPath s
  | variant v => v.isSound
  | strings items => items.all isSoundText
  | paths items => items.all Identifier.isPath
  | textMap entries => entries.all fun e => isSoundText e.1 && isSoundText e.2
  | variantMap entries => areSoundEntries entries
  | struct fields => areSound fields
  | rows items => items.all UnitRow.isSound

def areSound : List Value → Bool
  | [] => true
  | v :: vs => v.isSound && areSound vs

def areSoundEntries : List (String × Value) → Bool
  | [] => true
  | (key, v) :: entries => isSoundText key && v.isSound && areSoundEntries entries

end

end Value

namespace Body

/-- A body that is one structure has the same type as its fields in a row. -/
def fields : Body → Body
  | [.struct vs] => vs
  | body => body

/-- What a reader finds in a body, if it is sound. -/
def decode {α : Type} (body : Body) (f : Body → Option α) : Option α :=
  if Value.areSound body then f body else none

end Body

end UnitControl
