import UnitControl.Label

/-!
# Unit object paths

The object of a unit lives under a fixed path, below which the label of its name is the last
element.
-/

namespace UnitControl

namespace UnitPath

def base : String := "/org/freedesktop/systemd1/unit/"

def ofName (unit : String) : String := base ++ Label.escape unit

def toName? (path : String) : Option String :=
  match base.toList.isPrefixOf? path.toList with
  | some label =>
    if label = [] ∨ '/' ∈ label then none else Label.unescape (String.ofList label)
  | none => none

end UnitPath

end UnitControl
