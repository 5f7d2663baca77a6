import UnitControl.Label
import Mathlib.Data.List.Basic

/-!
# Labels are read back

Each byte is spelled by a token that reads back as that byte, whatever follows it. Hence different
texts have different labels.
-/

namespace UnitControl.Label

theorem hexValue?_hexDigit {n : UInt8} (h : n.toNat < 16) : hexValue? (hexDigit n) = some n := by
  have hn : n = UInt8.ofNat n.toNat := UInt8.ofNat_toNat.symm
  generalize n.toNat = k at h hn
  subst hn
  match k, h with
  | 0, _ | 1, _ | 2, _ | 3, _ | 4, _ | 5, _ | 6, _ | 7, _ | 8, _ | 9, _ | 10, _ | 11, _ | 12, _
  | 13, _ | 14, _ | 15, _ => decide
  | k + 16, h => exact absurd h (by omega)

theorem hexDigit_ne_plus {n : UInt8} (h : n.toNat < 16) : hexDigit n ≠ plus := by
  intro he
  have hv := hexValue?_hexDigit h
  rw [he] at hv
  cases hv

theorem toNat_high_lt (b : UInt8) : (b / 16).toNat < 16 := by
  have hb : b.toNat < 256 := b.toNat_lt
  rw [UInt8.toNat_div]
  change b.toNat / 16 < 16
  omega

theorem toNat_low_lt (b : UInt8) : (b % 16).toNat < 16 := by
  rw [UInt8.toNat_mod]
  change b.toNat % 16 < 16
  omega

theorem pairValue?_hexDigits (b : UInt8) :
    pairValue? (hexDigit (b / 16)) (hexDigit (b % 16)) = some b := by
  have hh := toNat_high_lt b
  unfold pairValue?
  rw [if_neg (hexDigit_ne_plus hh), hexValue?_hexDigit hh, hexValue?_hexDigit (toNat_low_lt b)]
  have hv : 16 * (b / 16) + b % 16 = b := by
    have hb : b.toNat < 256 := b.toNat_lt
    apply UInt8.toNat.inj
    rw [UInt8.toNat_add, UInt8.toNat_mul, UInt8.toNat_div, UInt8.toNat_mod]
    change (16 * (b.toNat / 16) % 256 + b.toNat % 16) % 256 = b.toNat
    omega
  exact congrArg some hv

theorem ne_underscore_of_isPlain {start : Bool} {b : UInt8} (h : isPlain start b = true) :
    b ≠ underscore := by
  rintro rfl
  cases start <;> exact absurd h (by decide)

theorem read_spellByte (start : Bool) (b : UInt8) (bs : List UInt8) :
    read (spellByte start b ++ bs) = (read bs).map (b :: ·) := by
  unfold spellByte
  cases hp : isPlain start b with
  | true => exact read_plain bs (ne_underscore_of_isPlain hp)
  | false =>
    have hr : read (underscore :: hexDigit (b / 16) :: hexDigit (b % 16) :: bs) = _ :=
      read_pair _ _ bs
    rw [pairValue?_hexDigits] at hr
    exact hr

theorem read_flatMap_spellByte (bs : List UInt8) :
    read (bs.flatMap (spellByte false)) = some bs := by
  induction bs with
  | nil => exact read_nil
  | cons b bs ih => rw [List.flatMap_cons, read_spellByte, ih, Option.map_some]

theorem read_spell_cons (b : UInt8) (bs : List UInt8) :
    read (spell (b :: bs)) = some (b :: bs) := by
  rw [spell, read_spellByte, read_flatMap_spellByte, Option.map_some]

theorem read_spell_nil : read (spell []) = none := by decide

theorem spell_injective : Function.Injective spell := by
  intro bs cs h
  have hr := congrArg read h
  cases bs with
  | nil =>
    cases cs with
    | nil => rfl
    | cons c cs =>
      rw [read_spell_nil, read_spell_cons] at hr
      cases hr
  | cons b bs =>
    cases cs with
    | nil =>
      rw [read_spell_nil, read_spell_cons] at hr
      cases hr
    | cons c cs =>
      rw [read_spell_cons, read_spell_cons] at hr
      exact Option.some.inj hr

theorem char_injective : Function.Injective fun b => Char.ofUInt8 b := by
  intro a b h
  have hn := congrArg Char.toNat h
  exact UInt8.toNat.inj hn

theorem ofText_injective : Function.Injective Bytes.ofText := by
  intro s t h
  have hd := congrArg Bytes.toText? h
  rw [Bytes.toText?_ofText, Bytes.toText?_ofText] at hd
  exact Option.some.inj hd

theorem escape_injective : Function.Injective escape := by
  intro s t h
  have hl : (spell (Bytes.ofText s)).map (fun b => Char.ofUInt8 b) =
      (spell (Bytes.ofText t)).map fun b => Char.ofUInt8 b := String.ofList_injective h
  exact ofText_injective (spell_injective (List.map_injective_iff.2 char_injective hl))

end UnitControl.Label
