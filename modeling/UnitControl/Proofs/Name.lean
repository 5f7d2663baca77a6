import UnitControl.Name
import UnitControl.Proofs.Text.Blank

/-!
# Canonical names

A text has a canonical name exactly if it is free of control characters and what is left between
its blanks can stand for a unit. A canonical name is its own canonical name, and blanks around a
text do not change what comes of it.
-/

namespace UnitControl

namespace ControlFault

/-- Text without control characters does not change the fault of the text that it is put around. -/
theorem find?_surround {before after : List Char} (cs : List Char)
    (h : ∀ c ∈ before ++ after, isControl c = false) :
    find? (before ++ cs ++ after) = find? cs := by
  have hmem : ∀ c, isControl c = true → (c ∈ before ++ cs ++ after ↔ c ∈ cs) := by
    intro c hc
    have hout : ∀ l : List Char, (∀ c ∈ l, isControl c = false) → c ∉ l := fun l hl hcl => by
      simp [hl c hcl] at hc
    have hb := hout before fun c hc => h c (List.mem_append_left _ hc)
    have ha := hout after fun c hc => h c (List.mem_append_right _ hc)
    simp [ha, hb]
  have hany : (before ++ cs ++ after).any isControl = cs.any isControl := by
    rw [Bool.eq_iff_iff, List.any_eq_true, List.any_eq_true]
    exact ⟨fun ⟨c, hc, hcc⟩ => ⟨c, (hmem c hcc).1 hc, hcc⟩,
      fun ⟨c, hc, hcc⟩ => ⟨c, (hmem c hcc).2 hc, hcc⟩⟩
  simp only [find?, hany, hmem '\x00' (by decide), hmem '\n' (by decide), hmem '\r' (by decide)]

end ControlFault

namespace Name

/-- Whether a text without blanks around it can stand for a unit, in full or for its service. -/
structure IsPlain (t : List Char) : Prop where
  ne_nil : t ≠ []
  slashless : '/' ∉ t
  dots : ¬ ['.', '.'] <:+: t

structure IsCanonical (y : List Char) : Prop extends IsPlain y, Blank.IsTrimmed y where
  ordinary : ∀ c ∈ y, isControl c = false
  dotted : '.' ∈ y

theorem hasDots_iff (cs : List Char) : hasDots cs = true ↔ ['.', '.'] <:+: cs := by
  fun_induction hasDots cs with
  | case1 rest => exact iff_of_true rfl ⟨[], rest, rfl⟩
  | case2 c cs hne ih =>
    rw [ih, List.infix_cons_iff, or_iff_right]
    rintro ⟨rest, hrest⟩
    simp only [List.cons_append, List.nil_append, List.cons.injEq] at hrest
    exact hne rest hrest.1.symm hrest.2.symm
  | case3 => simp

theorem isPlain_iff (t : List Char) : IsPlain t ↔ t ≠ [] ∧ '/' ∉ t ∧ hasDots t = false := by
  rw [← Bool.not_eq_true, hasDots_iff]
  exact ⟨fun h => ⟨h.ne_nil, h.slashless, h.dots⟩, fun h => ⟨h.1, h.2.1, h.2.2⟩⟩

theorem canonicalChars_eq_ok_iff (cs y : List Char) :
    canonicalChars cs = .ok y ↔ (∀ c ∈ cs, isControl c = false) ∧ IsPlain (Blank.trim cs) ∧
      y = withSuffix (Blank.trim cs) := by
  rw [← ControlFault.find?_eq_none_iff, isPlain_iff]
  unfold canonicalChars
  cases hf : ControlFault.find? cs with
  | some fault => simp
  | none =>
    by_cases hnil : Blank.trim cs = []
    · simp [hnil]
    by_cases hslash : '/' ∈ Blank.trim cs
    · simp [hnil, hslash]
    by_cases hdots : hasDots (Blank.trim cs) = true
    · simp [hnil, hslash, hdots]
    · simp [hnil, hslash, hdots, eq_comm]

theorem serviceSuffix_eq : serviceSuffix = ['.', 's', 'e', 'r', 'v', 'i', 'c', 'e'] :=
  String.toList_ofList

theorem isControl_of_mem_serviceSuffix : ∀ c ∈ serviceSuffix, isControl c = false := by
  have h : serviceSuffix.all (fun c => !isControl c) = true := by
    rw [serviceSuffix_eq]
    decide
  simpa using h

theorem dots_serviceSuffix {t : List Char} (h : '.' ∉ t) :
    ¬ ['.', '.'] <:+: t ++ serviceSuffix := by
  intro hdots
  have hcount := hdots.sublist.count_le '.'
  rw [List.count_append, List.count_eq_zero_of_not_mem h, serviceSuffix_eq] at hcount
  exact absurd hcount (by decide)

theorem isCanonical_withSuffix {t : List Char} (hp : IsPlain t) (ht : Blank.IsTrimmed t)
    (hc : ∀ c ∈ t, isControl c = false) : IsCanonical (withSuffix t) := by
  unfold withSuffix
  split
  · rename_i hdot
    exact { toIsPlain := hp, toIsTrimmed := ht, ordinary := hc, dotted := hdot }
  · rename_i hdot
    exact {
      ne_nil := by simp [hp.ne_nil]
      slashless := by simp [hp.slashless, serviceSuffix_eq]
      dots := dots_serviceSuffix hdot
      head := by
        intro c hc
        rw [List.head?_append_of_ne_nil _ hp.ne_nil] at hc
        exact ht.head c hc
      last := by
        intro c hc
        rw [serviceSuffix_eq, List.getLast?_append] at hc
        cases hc
        decide
      ordinary := by
        intro c hcs
        exact (List.mem_append.1 hcs).elim (hc c) (isControl_of_mem_serviceSuffix c)
      dotted := by simp [serviceSuffix_eq] }

theorem isCanonical_of_canonicalChars {cs y : List Char} (h : canonicalChars cs = .ok y) :
    IsCanonical y := by
  obtain ⟨hc, hp, rfl⟩ := (canonicalChars_eq_ok_iff cs y).1 h
  exact isCanonical_withSuffix hp (Blank.isTrimmed_trim cs) fun c hct =>
    hc c ((Blank.trim_sublist cs).subset hct)

theorem canonicalChars_of_isCanonical {y : List Char} (h : IsCanonical y) :
    canonicalChars y = .ok y := by
  rw [canonicalChars_eq_ok_iff, Blank.trim_of_isTrimmed h.toIsTrimmed]
  exact ⟨h.ordinary, h.toIsPlain, (if_pos h.dotted).symm⟩

theorem canonicalChars_surround {before after : List Char} (cs : List Char)
    (h : ∀ c ∈ before ++ after, isBlank c = true ∧ isControl c = false) :
    canonicalChars (before ++ cs ++ after) = canonicalChars cs := by
  unfold canonicalChars
  rw [ControlFault.find?_surround cs fun c hc => (h c hc).2,
    Blank.trim_surround cs fun c hc => (h c hc).1]

theorem canonical_eq_ok_iff (x y : String) :
    canonical x = .ok y ↔ canonicalChars x.toList = .ok y.toList := by
  unfold canonical
  cases canonicalChars x.toList with
  | error fault => simp [Except.map]
  | ok cs => simp [Except.map, ← String.toList_inj]

theorem exists_canonical_iff (x : String) :
    (∃ y, canonical x = .ok y) ↔
      (∀ c ∈ x.toList, isControl c = false) ∧ IsPlain (Blank.trim x.toList) := by
  simp only [canonical_eq_ok_iff, canonicalChars_eq_ok_iff]
  constructor
  · rintro ⟨y, hc, hp, -⟩
    exact ⟨hc, hp⟩
  · rintro ⟨hc, hp⟩
    exact ⟨String.ofList (withSuffix (Blank.trim x.toList)), hc, hp, String.toList_ofList⟩

theorem canonical_surround {before after : String} (x : String)
    (h : ∀ c ∈ before.toList ++ after.toList, isBlank c = true ∧ isControl c = false) :
    canonical (before ++ x ++ after) = canonical x := by
  unfold canonical
  rw [String.toList_append, String.toList_append, canonicalChars_surround _ h]

end Name

end UnitControl
