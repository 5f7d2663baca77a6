/-!
# Names on the bus

The bus knows its members, objects and connections by names of ASCII characters, some of which
consist of several parts with a separator between any two.
-/

namespace UnitControl

namespace Identifier

def isStart (c : Char) : Bool := c.isAlpha || c == '_'

def isWord (c : Char) : Bool := isStart c || c.isDigit

/-- Whether a text is a row of parts, none of them empty, of the given characters. With `within`,
the first part has begun already. -/
def hasParts (separator : Char) (allowed : Char → Bool) (within : Bool) : List Char → Bool
  | [] => within
  | c :: cs =>
    if c = separator then within && hasParts separator allowed false cs
    else allowed c && hasParts separator allowed true cs

/-- A member is named by at most 255 letters, digits and underscores, with no digit in front. -/
def isMember (name : String) : Bool :=
  match name.toList with
  | [] => false
  | c :: cs => isStart c && cs.all isWord && decide (cs.length < 255)

/-- The path of an object is a slash alone, or a row of parts with a slash before each. -/
def isPath (path : String) : Bool :=
  match path.toList with
  | ['/'] => true
  | '/' :: cs => hasParts '/' isWord false cs
  | _ => false

/-- The bus itself has a fixed name. A connection gets one of two or more parts after a colon. -/
def isConnection (name : String) : Bool :=
  match name.toList with
  | ':' :: cs =>
    hasParts '.' (fun c => isWord c || c == '-') false cs && cs.contains '.' &&
      decide (cs.length < 255)
  | _ => name == "org.freedesktop.DBus"

end Identifier

end UnitControl
