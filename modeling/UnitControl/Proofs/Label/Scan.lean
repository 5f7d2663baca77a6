import UnitControl.Label.Scan
import UnitControl.Proofs.Label.Grammar

/-!
# Scanning goes through

A scan looks only at bytes that a label has, and cuts out only what is a part of it. So it comes to
the end of every label, with the same result as reading.
-/

namespace UnitControl.Label

variable {label : String} {i : Nat}

theorem drop_eq_cons (h : i < label.utf8ByteSize) :
    ∃ b, byteAt label i = .ok b ∧
      (Bytes.ofText label).drop i = b :: (Bytes.ofText label).drop (i + 1) := by
  have hlt : i < (Bytes.ofText label).length := by rwa [Bytes.length_ofText]
  exact ⟨(Bytes.ofText label)[i], by simp [byteAt, hlt], List.drop_eq_getElem_cons hlt⟩

theorem slice?_eq (label : String) (start stop : Nat) :
    (∃ part, slice? label start stop = .ok (some part) ∧ stop ≤ label.utf8ByteSize ∧
      Bytes.ofText part = ((Bytes.ofText label).drop start).take (stop - start)) ∨
    slice? label start stop = .ok none ∧
      ¬(Bytes.IsBoundary label start ∧ Bytes.IsBoundary label stop) := by
  unfold slice?
  split
  · rename_i h
    have hle : stop ≤ label.utf8ByteSize := h.2.le_utf8ByteSize
    refine .inl ⟨label.extract ⟨⟨start⟩, h.1⟩ ⟨⟨stop⟩, h.2⟩, ?_, hle, ?_⟩
    · rw [slice, if_neg (Nat.not_lt.2 hle), dif_pos h]
      rfl
    · simp [Bytes.ofText, List.extract_eq_take_drop]
  · rename_i h
    exact .inr ⟨rfl, h⟩

/-- The byte that the first two of some bytes make. -/
def firstPair? : List UInt8 → Option UInt8
  | high :: low :: _ => pairValue? high low
  | _ => none

theorem read_underscore (ls : List UInt8) :
    read (underscore :: ls) = (firstPair? ls).bind fun v => (read (ls.drop 2)).map (v :: ·) := by
  match ls with
  | [] => rfl
  | [b] => rfl
  | high :: low :: rest => exact read_pair high low rest

theorem le_of_firstPair? {v : UInt8}
    (h : firstPair? ((Bytes.ofText label).drop (i + 1)) = some v) : i + 3 ≤ label.utf8ByteSize := by
  have hlen := List.length_drop (i := i + 1) (l := Bytes.ofText label)
  rw [Bytes.length_ofText] at hlen
  unfold firstPair? at h
  split at h
  · rename_i hd
    rw [hd, List.length_cons, List.length_cons] at hlen
    omega
  · cases h

theorem slice?_bind_byteOf? (label : String) (i : Nat) :
    ∃ part?, slice? label i (i + 2) = .ok part? ∧
      part?.bind byteOf? = firstPair? ((Bytes.ofText label).drop i) := by
  obtain ⟨part, hs, hle, hpart⟩ | ⟨hs, hn⟩ := slice?_eq label i (i + 2)
  · refine ⟨some part, hs, ?_⟩
    have hlen := List.length_drop (i := i) (l := Bytes.ofText label)
    rw [Bytes.length_ofText] at hlen
    rw [Nat.add_sub_cancel_left] at hpart
    match hd : (Bytes.ofText label).drop i with
    | [] | [b] =>
      rw [hd] at hlen
      simp at hlen
      omega
    | high :: low :: rest =>
      rw [hd] at hpart
      simp only [Option.bind_some, byteOf?, hpart, List.take_succ_cons, List.take_zero, firstPair?]
  · refine ⟨none, hs, (Option.eq_none_iff_forall_not_mem.2 fun v hv => hn ?_).symm⟩
    unfold firstPair? at hv
    split at hv
    · rename_i high low rest hd
      have hpair : (Bytes.ofText label).drop i = [high, low] ++ rest := hd
      exact Bytes.isBoundary_of_ascii hpair (by simp) (toNat_lt_of_pairValue? hv)
    · cases hv

/-- From any position on, a scan is over without a breach, and finds what is to be read there. -/
theorem scanFrom_eq (h : i ≤ label.utf8ByteSize) (bytes : List UInt8) :
    scanFrom label i bytes = .ok ((read ((Bytes.ofText label).drop i)).map (bytes ++ ·)) := by
  induction hn : label.utf8ByteSize - i using Nat.strongRecOn generalizing i bytes with
  | ind n ih =>
    rw [scanFrom]
    split
    · rename_i hlt
      obtain ⟨b, hb, hd⟩ := drop_eq_cons hlt
      rw [hb, hd]
      by_cases hu : b = underscore
      · subst hu
        obtain ⟨part?, hs, hp⟩ := slice?_bind_byteOf? label (i + 1)
        rw [read_underscore, List.drop_drop]
        simp only [bind, Except.bind, if_true, hs, hp]
        split
        · rename_i v hv
          have hle := le_of_firstPair? hv
          rw [hv, ih _ (by omega) hle _ rfl]
          simp [Function.comp_def]
        · rename_i hv
          rw [hv]
          rfl
      · rw [read_plain _ hu]
        simp only [bind, Except.bind, if_neg hu]
        rw [ih _ (by omega) hlt _ rfl]
        simp [Function.comp_def]
    · rename_i hge
      have hnil : (Bytes.ofText label).drop i = [] := by
        rw [List.drop_eq_nil_iff, Bytes.length_ofText]
        exact Nat.not_lt.1 hge
      rw [hnil, read_nil]
      simp [pure, Except.pure]

theorem scan_eq (label : String) : scan label = .ok (unescape label) := by
  unfold scan unescape
  split
  · rfl
  · rw [scanFrom_eq (Nat.zero_le _)]
    simp [Except.map]

/-- A label is accepted exactly if it is the lone underscore or falls into tokens, which then spell
what is returned; and whatever the label is, the scan comes to its end. -/
theorem unescape_iff_spells_and_scan (label text : String) :
    (unescape label = some text ↔
      label = "_" ∧ text = "" ∨ SpellsFrom label 0 (Bytes.ofText text)) ∧
    scan label = .ok (unescape label) :=
  ⟨unescape_eq_some_iff, scan_eq label⟩

example : scan "_4é" = .ok none := by
  rw [scan_eq]
  decide

end UnitControl.Label
