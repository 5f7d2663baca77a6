import UnitControl.Error
import UnitControl.Text.Blank
import UnitControl.Text.Control

/-!
# Unit names

A unit may be given by its full name or by a shorthand without a suffix; the canonical name of a
shorthand is that of the service.
-/

namespace UnitControl

inductive NameFault
  | control (fault : ControlFault)
  | empty
  | slash
  | dots
  deriving DecidableEq, Repr

namespace NameFault

def message : NameFault → String
  | control fault => fault.message "unit"
  | empty => "unit must not be empty"
  | slash => "unit must not contain '/'"
  | dots => "unit must not contain '..'"

def toError (fault : NameFault) : Error := .invalidInput fault.message

end NameFault

namespace Name

def hasDots : List Char → Bool
  | '.' :: '.' :: _ => true
  | _ :: cs => hasDots cs
  | [] => false

def serviceSuffix : List Char := ".service".toList

/-- A name without a dot is that of a service. -/
def withSuffix (cs : List Char) : List Char :=
  if '.' ∈ cs then cs else cs ++ serviceSuffix

def canonicalChars (cs : List Char) : Except NameFault (List Char) :=
  match ControlFault.find? cs with
  | some fault => .error (.control fault)
  | none =>
    let t := Blank.trim cs
    if t = [] then .error .empty
    else if '/' ∈ t then .error .slash
    else if hasDots t then .error .dots
    else .ok (withSuffix t)

def canonical (text : String) : Except NameFault String :=
  (canonicalChars text.toList).map String.ofList

/-- Control characters are refused on their own, for a text of any kind. -/
def checkControl (subject text : String) : Except Error Unit :=
  match ControlFault.find? text.toList with
  | some fault => .error (.invalidInput (fault.message subject))
  | none => .ok ()

end Name

end UnitControl
