import UnitControl.Label.Grammar
import UnitControl.Proofs.UnitPath.RoundTrip

/-!
# Reading by the grammar

A label is read exactly if its bytes fall into tokens, and what is read is what the tokens stand
for. The two characters after an underscore are ASCII, so that they are a part of the label without
being asked for it.
-/

namespace UnitControl

namespace Bytes

theorem isBoundary_of_ascii {s : String} {i : Nat} {part rest : List UInt8}
    (h : (ofText s).drop i = part ++ rest) (hne : part ≠ []) (hascii : ∀ b ∈ part, b.toNat < 128) :
    IsBoundary s i ∧ IsBoundary s (i + part.length) := by
  have hlen : s.utf8ByteSize - i = part.length + rest.length := by
    rw [← length_ofText, ← List.length_drop, h, List.length_append]
  have hpos := List.length_pos_iff.2 hne
  have hle : i + part.length ≤ s.utf8ByteSize := by omega
  have hvalid : (s.toByteArray.extract i (i + part.length)).IsValidUTF8 := by
    have hcut : s.toByteArray.extract i (i + part.length) =
        (String.ofList (part.map fun b => Char.ofUInt8 b)).toByteArray := by
      refine ByteArray.ext (Array.toList_inj.1 ?_)
      rw [ByteArray.data_extract, Array.toList_extract, List.extract_eq_take_drop,
        Nat.add_sub_cancel_left]
      change ((ofText s).drop i).take part.length = ofText _
      rw [h, List.take_left, ofText_ascii hascii]
    rw [hcut]
    exact String.isValidUTF8 _
  obtain hi | hboth := (String.Pos.Raw.isValidUTF8_extract_iff ⟨i⟩ ⟨i + part.length⟩
    (Nat.le_add_right _ _) hle).1 hvalid
  · have hi := congrArg String.Pos.Raw.byteIdx hi
    dsimp only at hi
    omega
  · exact hboth

end Bytes

namespace Label

theorem hexValue?_eq_some_iff {b v : UInt8} : hexValue? b = some v ↔ HexDigit b v := by
  constructor
  · intro h
    unfold hexValue? at h
    split at h
    · have hd := HexDigit.decimal v (by grind)
      rwa [show 0x30 + v = b by grind] at hd
    · split at h
      · have hd := HexDigit.lower (b - 0x61) (by grind)
        rwa [show 0x61 + (b - 0x61) = b by grind, show 10 + (b - 0x61) = v by grind] at hd
      · split at h
        · have hd := HexDigit.upper (b - 0x41) (by grind)
          rwa [show 0x41 + (b - 0x41) = b by grind, show 10 + (b - 0x41) = v by grind] at hd
        · cases h
  · intro h
    unfold hexValue?
    cases h with
    | decimal v hv =>
      rw [if_pos (by grind)]
      exact congrArg some (by grind)
    | lower n hn =>
      rw [if_neg (by grind), if_pos (by grind)]
      exact congrArg some (by grind)
    | upper n hn =>
      rw [if_neg (by grind), if_neg (by grind), if_pos (by grind)]
      exact congrArg some (by grind)

theorem toNat_lt_of_hexValue? {b v : UInt8} (h : hexValue? b = some v) : b.toNat < 128 := by
  have hb : b < 128 := by
    unfold hexValue? at h
    grind
  exact UInt8.lt_iff_toNat_lt.1 hb

theorem pairValue?_eq_some_iff {high low v : UInt8} :
    pairValue? high low = some v ↔ Token [underscore, high, low] v := by
  constructor
  · intro h
    unfold pairValue? at h
    split at h
    · rename_i hp
      exact hp ▸ .signed (hexValue?_eq_some_iff.1 h)
    · split at h
      · rename_i a b ha hb
        cases h
        exact .pair (hexValue?_eq_some_iff.1 ha) (hexValue?_eq_some_iff.1 hb)
      · cases h
  · intro h
    unfold pairValue?
    cases h with
    | pair hh hl =>
      have hne : high ≠ plus := by
        rintro rfl
        cases hexValue?_eq_some_iff.2 hh
      rw [if_neg hne, hexValue?_eq_some_iff.2 hh, hexValue?_eq_some_iff.2 hl]
    | signed hl => rw [if_pos rfl, hexValue?_eq_some_iff.2 hl]

theorem toNat_lt_of_pairValue? {high low v : UInt8} (h : pairValue? high low = some v) :
    ∀ b ∈ [high, low], b.toNat < 128 := by
  intro b hb
  cases pairValue?_eq_some_iff.1 h with
  | pair hh hl =>
    obtain rfl | rfl := List.mem_pair.1 hb
    · exact toNat_lt_of_hexValue? (hexValue?_eq_some_iff.2 hh)
    · exact toNat_lt_of_hexValue? (hexValue?_eq_some_iff.2 hl)
  | signed hl =>
    obtain rfl | rfl := List.mem_pair.1 hb
    · decide
    · exact toNat_lt_of_hexValue? (hexValue?_eq_some_iff.2 hl)

/-- A token is a byte that stands for itself, or an underscore and two bytes that make a value. -/
theorem Token.cases_pair {t : List UInt8} {v : UInt8} (h : Token t v) :
    (t = [v] ∧ v ≠ underscore) ∨
      ∃ high low, t = [underscore, high, low] ∧ pairValue? high low = some v := by
  cases h with
  | self _ hb => exact .inl ⟨rfl, hb⟩
  | pair hh hl => exact .inr ⟨_, _, rfl, pairValue?_eq_some_iff.2 (.pair hh hl)⟩
  | signed hl => exact .inr ⟨_, _, rfl, pairValue?_eq_some_iff.2 (.signed hl)⟩

theorem read_eq_some_iff {ls bs : List UInt8} : read ls = some bs ↔ Spells ls bs := by
  constructor
  · intro h
    fun_induction read ls generalizing bs with
    | case1 =>
      cases h
      exact .nil
    | case2 high low rest v hv ih =>
      obtain ⟨vs, hr, rfl⟩ := Option.map_eq_some_iff.1 h
      exact .token (t := [underscore, high, low]) (pairValue?_eq_some_iff.1 hv) (ih hr)
    | case3 => cases h
    | case4 => cases h
    | case5 b rest hb ih =>
      obtain ⟨vs, hr, rfl⟩ := Option.map_eq_some_iff.1 h
      exact .token (t := [b]) (.self b hb) (ih hr)
  · intro h
    induction h with
    | nil => exact read_nil
    | @token t b ls bs ht _ ih =>
      obtain ⟨rfl, hb⟩ | ⟨high, low, rfl, hv⟩ := ht.cases_pair
      · have hr : read ([b] ++ ls) = _ := read_plain ls hb
        rw [hr, ih, Option.map_some]
      · have hr : read ([underscore, high, low] ++ ls) = _ := read_pair high low ls
        rw [hr, hv, ih]
        rfl

theorem drop_add_of_append {label : String} {i : Nat} {t rest : List UInt8}
    (h : (Bytes.ofText label).drop i = t ++ rest) :
    (Bytes.ofText label).drop (i + t.length) = rest := by
  rw [← List.drop_drop, h, List.drop_left]

theorem spellsFrom_iff {label : String} {i : Nat} {bs : List UInt8} :
    SpellsFrom label i bs ↔
      i ≤ label.utf8ByteSize ∧ Spells ((Bytes.ofText label).drop i) bs := by
  constructor
  · intro h
    induction h with
    | done =>
      rw [← Bytes.length_ofText, List.drop_length]
      exact ⟨Nat.le_refl _, .nil⟩
    | token ht hpre _ _ ih =>
      obtain ⟨rest, hrest⟩ := hpre
      obtain ⟨hle, hs⟩ := ih
      rw [drop_add_of_append hrest.symm] at hs
      rw [← hrest]
      exact ⟨Nat.le_of_add_right_le hle, .token ht hs⟩
  · rintro ⟨hle, hs⟩
    generalize hls : (Bytes.ofText label).drop i = ls at hs
    induction hs generalizing i with
    | nil =>
      have hlen := Bytes.length_ofText label
      rw [List.drop_eq_nil_iff] at hls
      rw [show i = label.utf8ByteSize by omega]
      exact .done
    | @token t b ls bs ht _ ih =>
      have hlen := congrArg List.length hls
      rw [List.length_drop, Bytes.length_ofText, List.length_append] at hlen
      refine .token ht ⟨ls, hls.symm⟩ (fun pair hp => ?_) (ih ?_ (drop_add_of_append hls))
      · obtain ⟨rfl, hb⟩ | ⟨high, low, rfl, hv⟩ := ht.cases_pair
        · cases hp
          exact absurd rfl hb
        · cases hp
          have hpair : (Bytes.ofText label).drop (i + 1) = [high, low] ++ ls :=
            drop_add_of_append (t := [underscore]) hls
          exact Bytes.isBoundary_of_ascii hpair (by simp) (toNat_lt_of_pairValue? hv)
      · have hpos : 0 < t.length := by
          obtain ⟨rfl, -⟩ | ⟨high, low, rfl, -⟩ := ht.cases_pair <;> simp
        omega

theorem unescape_eq_some_iff {label text : String} : unescape label = some text ↔
    label = "_" ∧ text = "" ∨ SpellsFrom label 0 (Bytes.ofText text) := by
  have hread : ((read (Bytes.ofText label)).bind Bytes.toText? = some text) ↔
      SpellsFrom label 0 (Bytes.ofText text) := by
    rw [spellsFrom_iff, List.drop_zero, ← read_eq_some_iff, Option.bind_eq_some_iff]
    constructor
    · rintro ⟨bs, hr, ht⟩
      rw [Bytes.toText?_eq_some_iff] at ht
      exact ⟨Nat.zero_le _, ht ▸ hr⟩
    · rintro ⟨-, hr⟩
      exact ⟨_, hr, Bytes.toText?_ofText text⟩
  unfold unescape
  split
  · rename_i hl
    have hnone : read (Bytes.ofText label) = none := by
      rw [hl]
      decide
    rw [← hread, hnone]
    simp [hl, eq_comm]
  · rename_i hl
    rw [hread]
    simp [hl]

end Label

end UnitControl
