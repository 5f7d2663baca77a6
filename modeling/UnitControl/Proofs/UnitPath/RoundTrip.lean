import UnitControl.Label.Grammar
import UnitControl.UnitStatus
import UnitControl.Proofs.Label.RoundTrip

/-!
# Paths of unit objects are read back

A label holds nothing but letters, digits and underscores, so that its bytes are its characters.
Reading them gives the text again, whatever that is made of, and the path of a unit leads back to
the name of the unit.
-/

namespace UnitControl

namespace Bytes

theorem utf8EncodeChar_ofUInt8 {b : UInt8} (h : b.toNat < 128) :
    String.utf8EncodeChar (Char.ofUInt8 b) = [b] := by
  have hv : (Char.ofUInt8 b).val.toNat = b.toNat := UInt8.toNat_toUInt32 b
  simp only [String.utf8EncodeChar, hv]
  rw [if_pos (Nat.lt_succ_iff.1 h), UInt8.ofNat_toNat]

theorem ofText_ofList (cs : List Char) :
    ofText (String.ofList cs) = cs.flatMap String.utf8EncodeChar := by
  simp [ofText, List.utf8Encode]

theorem ofText_ascii {bs : List UInt8} (h : ∀ b ∈ bs, b.toNat < 128) :
    ofText (String.ofList (bs.map fun b => Char.ofUInt8 b)) = bs := by
  rw [ofText_ofList]
  induction bs with
  | nil => rfl
  | cons b bs ih =>
    have hb := h b List.mem_cons_self
    have hbs := ih fun c hc => h c (List.mem_cons_of_mem b hc)
    rw [List.map_cons, List.flatMap_cons, utf8EncodeChar_ofUInt8 hb, hbs, List.singleton_append]

theorem ofText_eq_nil {s : String} (h : ofText s = []) : s = "" := by
  have hs := toText?_ofText s
  rw [h] at hs
  exact (Option.some.inj hs).symm

end Bytes

namespace Label

/-- Whether a byte may stand in an element of a path. -/
def isOrdinary (b : UInt8) : Bool := isLetter b || isDigit b || b == underscore

theorem isOrdinary_hexDigit {n : UInt8} (h : n.toNat < 16) : isOrdinary (hexDigit n) = true := by
  have hall : ∀ k < 16, isOrdinary (hexDigit (UInt8.ofNat k)) = true := by decide
  have hn := hall n.toNat h
  rwa [UInt8.ofNat_toNat] at hn

theorem isOrdinary_of_isPlain {start : Bool} {b : UInt8} (h : isPlain start b = true) :
    isOrdinary b = true := by
  obtain h | h := Bool.or_eq_true_iff.1 h
  · simp [isOrdinary, h]
  · simp [isOrdinary, (Bool.and_eq_true_iff.1 h).2]

theorem toNat_lt_of_isOrdinary {b : UInt8} (h : isOrdinary b = true) : b.toNat < 128 := by
  simp only [isOrdinary, isLetter, isDigit, underscore, Bool.or_eq_true, decide_eq_true_eq,
    beq_iff_eq, UInt8.le_iff_toNat_le, UInt8.reduceToNat] at h
  obtain (h | h) | rfl := h
  · omega
  · omega
  · decide

theorem isOrdinary_of_mem_spellByte {start : Bool} {b c : UInt8} (h : c ∈ spellByte start b) :
    isOrdinary c = true := by
  unfold spellByte at h
  split at h
  · rename_i hp
    rw [List.mem_singleton.1 h]
    exact isOrdinary_of_isPlain hp
  · simp only [List.mem_cons, List.not_mem_nil, or_false] at h
    obtain rfl | rfl | rfl := h
    · rfl
    · exact isOrdinary_hexDigit (toNat_high_lt b)
    · exact isOrdinary_hexDigit (toNat_low_lt b)

theorem isOrdinary_of_mem_spell {bs : List UInt8} {c : UInt8} (h : c ∈ spell bs) :
    isOrdinary c = true := by
  cases bs with
  | nil =>
    rw [List.mem_singleton.1 h]
    rfl
  | cons b bs =>
    obtain h | h := List.mem_append.1 h
    · exact isOrdinary_of_mem_spellByte h
    · obtain ⟨x, -, h⟩ := List.mem_flatMap.1 h
      exact isOrdinary_of_mem_spellByte h

theorem isDigit_of_isLetter {b : UInt8} (h : isLetter b = true) : isDigit b = false := by
  simp only [isLetter, decide_eq_true_eq, UInt8.le_iff_toNat_le, UInt8.reduceToNat] at h
  simp only [isDigit, decide_eq_false_iff_not, UInt8.le_iff_toNat_le, UInt8.reduceToNat]
  omega

theorem exists_spell_eq_cons (bs : List UInt8) :
    ∃ c cs, spell bs = c :: cs ∧ isDigit c = false := by
  cases bs with
  | nil => exact ⟨underscore, [], rfl, rfl⟩
  | cons b bs =>
    cases hp : isPlain true b with
    | true =>
      have hl : isLetter b = true := by simpa [isPlain] using hp
      exact ⟨b, bs.flatMap (spellByte false), by simp [spell, spellByte, hp],
        isDigit_of_isLetter hl⟩
    | false =>
      have hs : spellByte true b = [underscore, hexDigit (b / 16), hexDigit (b % 16)] := by
        simp [spellByte, hp]
      rw [spell, hs]
      exact ⟨underscore, _, rfl, rfl⟩

theorem ofText_escape (text : String) : Bytes.ofText (escape text) = spell (Bytes.ofText text) :=
  Bytes.ofText_ascii fun _ hb => toNat_lt_of_isOrdinary (isOrdinary_of_mem_spell hb)

theorem isElement_escape (text : String) : IsElement (escape text) := by
  obtain ⟨c, cs, hs, hc⟩ := exists_spell_eq_cons (Bytes.ofText text)
  refine ⟨c, cs, (ofText_escape text).trans hs, hc, fun b hb => ?_⟩
  rw [← hs] at hb
  exact isOrdinary_of_mem_spell hb

theorem escape_empty : escape "" = "_" := by decide

theorem unescape_escape (text : String) : unescape (escape text) = some text := by
  by_cases ht : text = ""
  · subst ht
    rw [escape_empty]
    rfl
  · -- only the empty text is a lone underscore, which is no token
    have hl : escape text ≠ "_" := fun h => ht (escape_injective (h.trans escape_empty.symm))
    rw [unescape, if_neg hl, ofText_escape]
    cases hb : Bytes.ofText text with
    | nil => exact absurd (Bytes.ofText_eq_nil hb) ht
    | cons b bs => rw [read_spell_cons, Option.bind_some, ← hb, Bytes.toText?_ofText]

theorem escape_ne_empty (text : String) : escape text ≠ "" := by
  intro h
  obtain ⟨c, cs, hs, -⟩ := exists_spell_eq_cons (Bytes.ofText text)
  rw [← ofText_escape, h] at hs
  cases hs

theorem ofUInt8_notMem_escape {b : UInt8} (h : isOrdinary b = false) (text : String) :
    Char.ofUInt8 b ∉ (escape text).toList := by
  rw [escape, String.toList_ofList]
  intro hm
  obtain ⟨c, hc, he⟩ := List.mem_map.1 hm
  rw [← char_injective he, isOrdinary_of_mem_spell hc] at h
  cases h

end Label

namespace UnitPath

theorem toName?_base_append {label : String} (h : label ≠ "") (hs : '/' ∉ label.toList) :
    toName? (base ++ label) = Label.unescape label := by
  have hp : base.toList.isPrefixOf? (base ++ label).toList = some label.toList := by
    rw [List.isPrefixOf?_eq_some_iff_append_eq, String.toList_append]
  have hno : ¬(label.toList = [] ∨ '/' ∈ label.toList) := by
    rintro (hn | hm)
    · exact h (String.toList_inj.1 hn)
    · exact hs hm
  simp only [toName?, hp]
  rw [if_neg hno, String.ofList_toList]

theorem toName?_ofName (unit : String) : toName? (ofName unit) = some unit := by
  have hs : '/' ∉ (Label.escape unit).toList :=
    Label.ofUInt8_notMem_escape (b := 0x2F) (by decide) unit
  rw [ofName, toName?_base_append (Label.escape_ne_empty unit) hs, Label.unescape_escape]

/-- Whatever the name of a unit is made of, its label is an element of a path, and both the label
and the path lead back to the name: no two units have one label. -/
theorem labels_and_paths_round_trip :
    (∀ unit,
      Label.IsElement (Label.escape unit) ∧
      Label.unescape (Label.escape unit) = some unit ∧
      toName? (base ++ Label.escape unit) = some unit ∧
      ∀ l a, toName? (UnitStatus.ofStates unit l a).path = some unit) ∧
    Function.Injective Label.escape := by
  refine ⟨fun unit => ?_, Label.escape_injective⟩
  have hp := toName?_ofName unit
  exact ⟨Label.isElement_escape unit, Label.unescape_escape unit, hp, fun _ _ => hp⟩

/-- A digit in front, a hyphen and a dot are spelled out, and a letter outside ASCII is spelled out
byte by byte. -/
example : Label.escape "7-é.mount" = "_37_2d_c3_a9_2emount" := by decide

end UnitPath

end UnitControl
