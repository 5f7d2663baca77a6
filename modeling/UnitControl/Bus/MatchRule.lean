import UnitControl.UnitPath

/-!
# Match rules

The expressions by which a client asks the bus for signals. Every rule here asks for signals of the
service manager; it chooses their interface, their member and the object that emits them.
-/

namespace UnitControl

def managerName : String := "org.freedesktop.systemd1"

def managerPath : String := "/org/freedesktop/systemd1"

def managerInterface : String := "org.freedesktop.systemd1.Manager"

def propertiesInterface : String := "org.freedesktop.DBus.Properties"

structure MatchRule where
  interface : String
  member : String
  path : String
  deriving DecidableEq, Repr

namespace MatchRule

/-- The signals of the manager object with this member name. -/
def manager (member : String) : MatchRule := ⟨managerInterface, member, managerPath⟩

/-- The property changes of one unit. -/
def unit (name : String) : MatchRule :=
  ⟨propertiesInterface, "PropertiesChanged", UnitPath.ofName name⟩

def items (r : MatchRule) : List (String × String) :=
  [("type", "signal"), ("sender", managerName), ("interface", r.interface),
    ("member", r.member), ("path", r.path)]

def itemText (i : String × String) : String := i.1 ++ "='" ++ i.2 ++ "'"

def text (r : MatchRule) : String := ",".intercalate (r.items.map itemText)

end MatchRule

end UnitControl
