import UnitControl.Bus.MatchRule
import UnitControl.Error
import UnitControl.Signal

/-!
# Messages from the bus

What a client hears from the bus, and the signals among it. A signal of the manager or of a unit
object is decoded only if its body has exactly the types that its member name promises.
-/

namespace UnitControl

inductive MessageKind
  | signal
  | methodCall
  deriving DecidableEq, Repr

structure Message where
  kind : MessageKind
  path : String
  interface : String
  member : String
  body : Body

namespace Signal

def jobRemoved? : Body → Option Signal
  | [.uint32 id, .path job, .string unit, .string result] =>
    some (.jobRemoved id.toNat job unit result)
  | _ => none

def unitNew? : Body → Option Signal
  | [.string unit, .path path] => some (.unitNew unit path)
  | _ => none

def propertiesChanged? (path : String) : Body → Option Signal
  | [.string interface, .variantMap changed, .strings invalidated] =>
    some (.propertiesChanged path interface (.ofList changed) invalidated)
  | _ => none

/-- The signal of a member whose body is read by `f`. -/
def decode (member : String) (body : Body) (f : Body → Option Signal) : Except Error Signal :=
  match body.decode (f ·.fields) with
  | some signal => .ok signal
  | none => .error (.signalDecode member "unexpected body")

end Signal

/-- What a signal stream yields for a message: nothing unless it is a signal. -/
def Message.signal? (m : Message) : Option (Except Error Signal) :=
  if m.kind ≠ .signal then none
  else if m.interface = managerInterface ∧ m.member = "JobRemoved" then
    some (Signal.decode m.member m.body Signal.jobRemoved?)
  else if m.interface = managerInterface ∧ m.member = "UnitNew" then
    some (Signal.decode m.member m.body Signal.unitNew?)
  else if m.interface = propertiesInterface ∧ m.member = "PropertiesChanged" then
    some (Signal.decode m.member m.body (Signal.propertiesChanged? m.path))
  else some (.ok (.other m.interface m.member))

end UnitControl
