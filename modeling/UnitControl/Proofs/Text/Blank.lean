import UnitControl.Text.Blank
import Mathlib.Data.List.DropRight

/-!
# What is left between blanks

A text is blanks, the trimmed text, and blanks again. The trimmed text has no blank at its ends,
and no other part of the text does with that: blanks put around a text make no difference to it.
-/

namespace UnitControl

namespace Blank

structure IsTrimmed (cs : List Char) : Prop where
  head : ∀ c ∈ cs.head?, isBlank c = false
  last : ∀ c ∈ cs.getLast?, isBlank c = false

/-- The text `t` is what the blanks at the ends of `cs` leave. -/
structure Trims (cs t : List Char) : Prop where
  isTrimmed : IsTrimmed t
  split : ∃ before after : List Char, (∀ c ∈ before ++ after, isBlank c = true) ∧
    cs = before ++ t ++ after

theorem trimEnd_isPrefix (cs : List Char) : trimEnd cs <+: cs := List.rdropWhile_prefix isBlank cs

theorem trim_sublist (cs : List Char) : (trim cs).Sublist cs :=
  (trimEnd_isPrefix _).sublist.trans (List.dropWhile_sublist isBlank)

theorem head?_trimStart (cs : List Char) : ∀ c ∈ (trimStart cs).head?, isBlank c = false := by
  intro c hc
  have h := List.head?_dropWhile_not isBlank cs
  rw [show (cs.dropWhile isBlank).head? = some c from hc] at h
  exact h

theorem isTrimmed_trim (cs : List Char) : IsTrimmed (trim cs) where
  head := by
    intro c hc
    obtain ⟨rest, hrest⟩ := trimEnd_isPrefix (trimStart cs)
    refine head?_trimStart cs c ?_
    rw [← hrest, List.head?_append, show (trimEnd (trimStart cs)).head? = some c from hc]
    rfl
  last := by
    intro c hc
    rw [trim, trimEnd, List.getLast?_reverse] at hc
    exact head?_trimStart _ c hc

theorem trims_trim (cs : List Char) : Trims cs (trim cs) where
  isTrimmed := isTrimmed_trim cs
  split := by
    refine ⟨cs.takeWhile isBlank, (trimStart cs).rtakeWhile isBlank, ?_, ?_⟩
    · intro c hc
      exact (List.mem_append.1 hc).elim List.mem_takeWhile_imp List.mem_rtakeWhile_imp
    · have hend : trim cs ++ (trimStart cs).rtakeWhile isBlank = trimStart cs :=
        List.rdropWhile_append_rtakeWhile
      rw [List.append_assoc, hend]
      exact List.takeWhile_append_dropWhile.symm

theorem trimStart_of_head {cs : List Char} (h : ∀ c ∈ cs.head?, isBlank c = false) :
    trimStart cs = cs := by
  cases cs with
  | nil => rfl
  | cons c cs => simp [trimStart_cons, h c rfl]

theorem trim_of_isTrimmed {cs : List Char} (h : IsTrimmed cs) : trim cs = cs := by
  have hlast : trimStart cs.reverse = cs.reverse :=
    trimStart_of_head fun c hc => h.last c (by rwa [List.head?_reverse] at hc)
  rw [trim, trimStart_of_head h.head, trimEnd, hlast, List.reverse_reverse]

theorem trimStart_of_forall {cs : List Char} (h : ∀ c ∈ cs, isBlank c = true) :
    trimStart cs = [] := List.dropWhile_eq_nil_iff.2 h

theorem trimEnd_append {after : List Char} (cs : List Char) (h : ∀ c ∈ after, isBlank c = true) :
    trimEnd (cs ++ after) = trimEnd cs := by
  rw [trimEnd, List.reverse_append, trimStart, List.dropWhile_append_of_pos (by simpa using h)]
  rfl

theorem trim_surround {before after : List Char} (cs : List Char)
    (h : ∀ c ∈ before ++ after, isBlank c = true) : trim (before ++ cs ++ after) = trim cs := by
  have hbefore : ∀ c ∈ before, isBlank c = true := fun c hc => h c (List.mem_append_left _ hc)
  have hafter : ∀ c ∈ after, isBlank c = true := fun c hc => h c (List.mem_append_right _ hc)
  have hstart : trimStart (before ++ cs ++ after) = trimStart (cs ++ after) := by
    rw [List.append_assoc]
    exact List.dropWhile_append_of_pos hbefore
  rw [trim, hstart, trim, trimStart, List.dropWhile_append]
  split
  · rename_i hcs
    change trimEnd (trimStart after) = trimEnd (trimStart cs)
    rw [trimStart_of_forall hafter, show trimStart cs = [] from List.isEmpty_iff.1 hcs]
  · exact trimEnd_append _ hafter

end Blank

end UnitControl
