import UnitControl.Bus.MatchRule
import UnitControl.Proofs.Label.RoundTrip

/-!
# Rules of different units

The text of a rule for the property changes of a unit ends in the label of the unit, between quotes,
and is the same up to there for all units.
-/

namespace UnitControl.MatchRule

/-- What comes before the label of the unit. -/
def unitText : String :=
  itemText ("type", "signal") ++ "," ++ itemText ("sender", managerName) ++ "," ++
    itemText ("interface", propertiesInterface) ++ "," ++
    itemText ("member", "PropertiesChanged") ++ "," ++ "path" ++ "='" ++ UnitPath.base

theorem text_unit (name : String) : (unit name).text = unitText ++ Label.escape name ++ "'" := by
  simp only [text, items, unit, UnitPath.ofName, List.map_cons, List.map_nil,
    String.intercalate_cons_cons, String.intercalate_singleton, unitText, String.append_assoc]
  simp only [itemText, String.append_assoc]

theorem text_unit_injective {u v : String} (h : (unit u).text = (unit v).text) : u = v := by
  rw [text_unit, text_unit, String.append_left_inj, String.append_right_inj] at h
  exact Label.escape_injective h

end UnitControl.MatchRule
