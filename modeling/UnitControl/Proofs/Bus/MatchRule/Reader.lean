import UnitControl.Bus.MatchRule.Reader
import UnitControl.Proofs.Bus.MatchRule
import UnitControl.Proofs.UnitPath.RoundTrip

/-!
# Rules are read back

A list of items is read back from its text when no key has an equals sign in it and no value an
apostrophe. The name of a unit comes into its rule by its label only, in which there are none.
-/

namespace UnitControl.MatchRule

theorem splitAt?_append {stop : Char} {l : List Char} (h : stop ∉ l) (r : List Char) :
    splitAt? stop (l ++ stop :: r) = some (l, r) := by
  induction l with
  | nil => simp [splitAt?]
  | cons c l ih =>
    obtain ⟨hc, hl⟩ := not_or.1 (mt List.mem_cons.2 h)
    rw [List.cons_append, splitAt?, if_neg (Ne.symm hc), ih hl]
    rfl

/-- The item can be told from what comes after it. -/
def IsItem (i : String × String) : Prop := '=' ∉ i.1.toList ∧ '\'' ∉ i.2.toList

instance (i : String × String) : Decidable (IsItem i) :=
  inferInstanceAs (Decidable (_ ∧ _))

theorem toList_itemText (i : String × String) (rest : List Char) :
    (itemText i).toList ++ rest = i.1.toList ++ '=' :: '\'' :: (i.2.toList ++ '\'' :: rest) := by
  simp [itemText, String.toList_append]

theorem readItem_itemText {i : String × String} (h : IsItem i) (rest : List Char) :
    readItem ((itemText i).toList ++ rest) = some (i, rest) := by
  obtain ⟨hk, hv⟩ := h
  simp only [toList_itemText, readItem, splitAt?_append hk, splitAt?_append hv, Option.map_some,
    String.ofList_toList]

theorem readItems_last {cs : List Char} {i : String × String} (h : readItem cs = some (i, [])) :
    readItems cs = some [i] := by
  rw [readItems]
  split <;> simp_all

theorem readItems_cons {cs rest : List Char} {i : String × String}
    (h : readItem cs = some (i, ',' :: rest)) : readItems cs = (readItems rest).map (i :: ·) := by
  rw [readItems]
  split <;> simp_all

theorem read_intercalate {i : String × String} {is : List (String × String)}
    (h : ∀ j ∈ i :: is, IsItem j) :
    read (",".intercalate ((i :: is).map itemText)) = some (i :: is) := by
  induction is generalizing i with
  | nil =>
    have hi := readItem_itemText (h i List.mem_cons_self) []
    rw [List.append_nil] at hi
    exact readItems_last hi
  | cons j is ih =>
    have hrest := ih fun k hk => h k (List.mem_cons_of_mem i hk)
    have hi := readItem_itemText (h i List.mem_cons_self)
      (',' :: (",".intercalate ((j :: is).map itemText)).toList)
    rw [List.map_cons, List.map_cons, String.intercalate_cons_cons, ← List.map_cons]
    rw [read] at hrest ⊢
    rw [String.toList_append, String.toList_append, List.append_assoc]
    refine (readItems_cons hi).trans ?_
    rw [hrest]
    rfl

theorem read_text {r : MatchRule}
    (h : '\'' ∉ r.interface.toList ∧ '\'' ∉ r.member.toList ∧ '\'' ∉ r.path.toList) :
    read r.text = some r.items := by
  obtain ⟨hi, hm, hp⟩ := h
  have hkey : ∀ key ∈ ["interface", "member", "path"], '=' ∉ key.toList := by decide
  refine read_intercalate fun j hj => ?_
  simp only [List.mem_cons, List.not_mem_nil, or_false] at hj
  obtain rfl | rfl | rfl | rfl | rfl := hj
  · decide
  · decide
  · exact ⟨hkey "interface" (by decide), hi⟩
  · exact ⟨hkey "member" (by decide), hm⟩
  · exact ⟨hkey "path" (by decide), hp⟩

theorem apostrophe_notMem_ofName (unit : String) : '\'' ∉ (UnitPath.ofName unit).toList := by
  rw [UnitPath.ofName, String.toList_append, List.mem_append]
  rintro (hb | hl)
  · exact absurd hb (by decide)
  · exact Label.ofUInt8_notMem_escape (b := 0x27) (by decide) unit hl

/-- Whatever the name of a unit is made of, its rule has five items, of which four are always the
same. -/
theorem read_text_unit (unit : String) :
    read (MatchRule.unit unit).text =
      some [("type", "signal"), ("sender", managerName), ("interface", propertiesInterface),
        ("member", "PropertiesChanged"), ("path", UnitPath.ofName unit)] := by
  have hi : '\'' ∉ propertiesInterface.toList := by decide
  have hm : '\'' ∉ "PropertiesChanged".toList := by decide
  exact read_text ⟨hi, hm, apostrophe_notMem_ofName unit⟩

theorem text_unit_inj {u v : String} : (unit u).text = (unit v).text ↔ u = v :=
  ⟨text_unit_injective, fun h => h ▸ rfl⟩

theorem text_unit_ne_text_manager (unit member : String) :
    (MatchRule.unit unit).text ≠ (manager member).text := by
  intro h
  simp only [text, items, MatchRule.unit, manager, List.map_cons, List.map_nil,
    String.intercalate_cons_cons, itemText, String.append_assoc, String.append_right_inj] at h
  have hc := congrArg (fun t => t.toList[16]?) h
  simp [propertiesInterface, managerInterface] at hc

end UnitControl.MatchRule
