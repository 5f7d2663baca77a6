/-!
# Texts and numbers as bytes

A text is the UTF-8 encoding of its characters; not every list of bytes is the encoding of a text.
A number is written in a given count of bytes, the least significant first.
-/

namespace UnitControl

namespace Bytes

def ofText (s : String) : List UInt8 := s.toByteArray.data.toList

def toText? (bs : List UInt8) : Option String := String.fromUTF8? ⟨bs.toArray⟩

@[simp] theorem toText?_ofText (s : String) : toText? (ofText s) = some s := by
  have h : (⟨(ofText s).toArray⟩ : ByteArray) = s.toByteArray := by simp [ofText]
  simp [toText?, String.fromUTF8?, h, s.isValidUTF8, String.fromUTF8]

theorem eq_ofText_of_toText? {bs : List UInt8} {s : String} (h : toText? bs = some s) :
    bs = ofText s := by
  unfold toText? String.fromUTF8? at h
  split at h
  · injection h with h
    subst h
    simp [ofText, String.fromUTF8]
  · simp at h

theorem toText?_eq_some_iff {bs : List UInt8} {s : String} :
    toText? bs = some s ↔ bs = ofText s :=
  ⟨eq_ofText_of_toText?, fun h => h ▸ toText?_ofText s⟩

theorem length_ofText (s : String) : (ofText s).length = s.utf8ByteSize := by
  simp [ofText, ← String.size_toByteArray]

/-- A part of a text may begin or end at this byte: a character begins there, or the text is at its
end. -/
def IsBoundary (s : String) (i : Nat) : Prop := (⟨i⟩ : String.Pos.Raw).IsValid s

instance (s : String) (i : Nat) : Decidable (IsBoundary s i) :=
  inferInstanceAs (Decidable ((⟨i⟩ : String.Pos.Raw).IsValid s))

/-- Higher bytes of the number are left out. -/
def ofNat : Nat → Nat → List UInt8
  | 0, _ => []
  | width + 1, n => UInt8.ofNat n :: ofNat width (n / 256)

def toNat : List UInt8 → Nat
  | [] => 0
  | b :: bs => b.toNat + 256 * toNat bs

@[simp] theorem length_ofNat (width n : Nat) : (ofNat width n).length = width := by
  induction width generalizing n with
  | zero => rfl
  | succ width ih => simp [ofNat, ih]

@[simp] theorem ofNat_toNat (bs : List UInt8) : ofNat bs.length (toNat bs) = bs := by
  induction bs with
  | nil => rfl
  | cons b bs ih =>
    have hb : b.toNat < 256 := b.toNat_lt
    have hr : (b.toNat + 256 * toNat bs) / 256 = toNat bs := by omega
    have hm : UInt8.ofNat (b.toNat + 256 * toNat bs) = b := by
      apply UInt8.toNat.inj
      simp
    rw [List.length_cons, toNat, ofNat, hr, hm, ih]

end Bytes

end UnitControl
