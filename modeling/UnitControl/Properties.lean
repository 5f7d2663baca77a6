import UnitControl.Bus.Value
import UnitControl.Table

/-!
# Property bags

The values that changed on a unit, by name. A reading succeeds only on a value of exactly the type
that is asked for.
-/

namespace UnitControl

structure Properties where
  values : Table String Value

namespace Properties

def empty : Properties := ⟨.empty⟩

def ofList (entries : List (String × Value)) : Properties := ⟨.ofList entries⟩

def ofTexts (entries : List (String × String)) : Properties :=
  ofList (entries.map fun e => (e.1, .string e.2))

variable (p : Properties)

def get? (key : String) : Option Value := p.values.get? key

def size : Nat := p.values.size

def text? (key : String) : Option String :=
  match p.get? key with
  | some (.string s) => some s
  | _ => none

/-- An empty text counts as missing. -/
def nonEmptyText? (key : String) : Option String := (p.text? key).bind nonEmpty

def bool? (key : String) : Option Bool :=
  match p.get? key with
  | some (.bool b) => some b
  | _ => none

def uint32? (key : String) : Option UInt32 :=
  match p.get? key with
  | some (.uint32 n) => some n
  | _ => none

def uint64? (key : String) : Option UInt64 :=
  match p.get? key with
  | some (.uint64 n) => some n
  | _ => none

def int32? (key : String) : Option Int32 :=
  match p.get? key with
  | some (.int32 n) => some n
  | _ => none

def activeState? : Option ActiveState := (p.text? "ActiveState").map .ofWord

def subState? : Option String := p.nonEmptyText? "SubState"

end Properties

/-- What a subscriber learns about one unit. -/
structure Update where
  unit : String
  changed : Properties

/-- The update for a unit that has just come into being. -/
def Update.created (unit : String) : Update := ⟨unit, .empty⟩

end UnitControl
