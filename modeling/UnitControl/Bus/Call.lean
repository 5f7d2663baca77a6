import UnitControl.Bus.MatchRule
import UnitControl.Bus.Wire
import UnitControl.Error
import UnitControl.Job

/-!
# Method calls on the bus

The calls that a client makes on the manager and on the bus itself, the ways in which they end, and
what each end means for the client.
-/

namespace UnitControl

structure MethodCall where
  destination : String
  path : String
  interface : String
  member : String
  args : List String
  deriving DecidableEq, Repr

namespace MethodCall

def onManager (member : String) (args : List String) : MethodCall :=
  ⟨managerName, managerPath, managerInterface, member, args⟩

def onBus (member : String) (args : List String) : MethodCall :=
  ⟨"org.freedesktop.DBus", "/org/freedesktop/DBus", "org.freedesktop.DBus", member, args⟩

/-- Whether the bus carries the call. -/
def isSendable (c : MethodCall) : Bool := Identifier.isMember c.member

/-- The call as the bus reads it, which finds no arguments if it does not take all of them. -/
def asRead (c : MethodCall) : MethodCall :=
  { c with args := if c.args.all isSoundText then c.args else [] }

end MethodCall

/-- How a method call ends for the client that made it. -/
inductive CallEnd
  | returned (body : Body)
  | failed (name message : String)
  | noAnswer
  /-- The connection is lost. -/
  | lost
  /-- The call could not be written. -/
  | unsendable

/-- Whether a text has another as a part. -/
def hasPart (part : List Char) : List Char → Bool
  | [] => part.isEmpty
  | c :: cs => part.isPrefixOf (c :: cs) || hasPart part cs

namespace CallEnd

def mentions (name part : String) : Bool := hasPart part.toList name.toList

/-- The error for an error reply. Only a call about a unit can miss that unit. -/
def rejection (action : String) (unit : Option String) (name message : String) : Error :=
  match unit, mentions name "NoSuchUnit" || mentions name "UnknownUnit" with
  | some unit, true => .unitNotFound unit
  | _, _ =>
    if mentions name "AccessDenied" || mentions name "PermissionDenied" ||
        mentions name "PolicyKit" then
      .permissionDenied action (name ++ ": " ++ message)
    else .dbusError name message

/-- How the context of an error of the connection starts. -/
def connectionFault : String := "dbus io error: "

/-- How the context of an error in what was sent or received starts. -/
def messageFault : String := "dbus error: "

def malformed : Error := .ioError (messageFault ++ "malformed message")

def lostConnection : Error := .ioError (connectionFault ++ "connection lost")

/-- The result of a call whose reply is read by `decode`. -/
def result {α : Type} (action : String) (limit : Duration) (unit : Option String)
    (decode : Body → Option α) : CallEnd → Except Error α
  | returned body =>
    match body.decode decode with
    | some a => .ok a
    | none => .error malformed
  | failed name message => .error (rejection action unit name message)
  | noAnswer => .error (.timeout action limit)
  | lost => .error lostConnection
  | unsendable => .error malformed

end CallEnd

/-- The end of a call that is answered by an error, whose message is read from the body. -/
def CallEnd.ofErrorReply (name : String) (body : Body) : CallEnd :=
  .failed name (body.leadingText?.getD "")

def decodeNothing : Body → Option Unit
  | [] => some ()
  | _ => none

def decodeJobPath : Body → Option String
  | [.path p] => some p
  | _ => none

def decodeListing : Body → Option (List UnitStatus)
  | [.rows rows] => some (rows.map UnitRow.status)
  | _ => none

/-- A job call has one to three arguments. -/
def checkArgs (request : JobRequest) : Except Error Unit :=
  if 1 ≤ request.args.length ∧ request.args.length ≤ 3 then .ok ()
  else
    .error (.invalidInput (request.method ++ ": expected 1 to 3 string arguments, got " ++
      toString request.args.length))

end UnitControl
