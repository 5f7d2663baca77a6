import UnitControl.Job
import UnitControl.UnitStatus

/-!
# Reading the rows of a listing

A row whose job columns agree can be had back from the unit that was read from it, so nothing is
lost. A state in it is one of the known words or is kept as it came.
-/

namespace UnitControl

/-- Words are read as values of their own if they are among the known ones, and are kept otherwise;
either way the value tells the word. -/
structure IsOpenVocabulary {σ : Type} (ofWord : String → σ) (word : σ → String)
    (stray : String → σ) (known : List String) : Prop where
  word_ofWord : ∀ w, word (ofWord w) = w
  ofWord_eq_stray_iff : ∀ w v, ofWord w = stray v ↔ w ∉ known ∧ v = w

theorem LoadState.isOpenVocabulary : IsOpenVocabulary ofWord word unknown
    ["loaded", "not-found", "error", "masked", "stub", "merged", "generated", "transient",
      "bad-setting"] where
  word_ofWord w := by
    unfold ofWord
    split <;> rfl
  ofWord_eq_stray_iff w v := by
    unfold ofWord
    split <;> simp_all [eq_comm]

theorem ActiveState.isOpenVocabulary : IsOpenVocabulary ofWord word unknown
    ["active", "reloading", "inactive", "failed", "activating", "deactivating", "maintenance"] where
  word_ofWord w := by
    unfold ofWord
    split <;> rfl
  ofWord_eq_stray_iff w v := by
    unfold ofWord
    split <;> simp_all [eq_comm]

theorem JobOutput.isOpenVocabulary : IsOpenVocabulary ofWord word other
    ["done", "canceled", "timeout", "failed", "dependency", "skipped"] where
  word_ofWord w := by
    unfold ofWord
    split <;> rfl
  ofWord_eq_stray_iff w v := by
    unfold ofWord
    split <;> simp_all [eq_comm]

theorem nonEmpty_ne_some_empty (s : String) : nonEmpty s ≠ some "" := by
  intro h
  obtain ⟨rfl, hne⟩ := nonEmpty_eq_some_iff.1 h
  exact hne rfl

/-- A unit has all of a job or nothing of it, and no text that stands for a missing one. -/
structure UnitStatus.IsRegular (s : UnitStatus) : Prop where
  job : s.jobId.isSome = s.jobPath.isSome
  jobType : s.jobType.isSome = true → s.jobId.isSome = true
  jobId : s.jobId ≠ some 0
  texts : ∀ text ∈ [s.description, s.sub, s.followed, s.jobType], text ≠ some ""

namespace UnitRow

/-- The columns of the job agree on whether there is one. -/
def IsConsistent (r : UnitRow) : Prop :=
  r.jobId ≠ 0 ∧ r.jobPath ≠ "/" ∨ r.jobId = 0 ∧ r.jobPath = "/" ∧ r.jobType = ""

theorem hasJob_iff (r : UnitRow) : r.hasJob = true ↔ r.jobId ≠ 0 ∧ r.jobPath ≠ "/" :=
  decide_eq_true_iff

theorem isRegular_status (r : UnitRow) : r.status.IsRegular := by
  cases hj : r.hasJob with
  | false => constructor <;> simp [status, hj, nonEmpty_ne_some_empty]
  | true =>
    have hid := ((hasJob_iff r).1 hj).1
    constructor <;> simp [status, hj, hid, nonEmpty_ne_some_empty]

theorem ofStatus_status {r : UnitRow} (h : r.IsConsistent) : ofStatus r.status = r := by
  have hload := LoadState.isOpenVocabulary.word_ofWord r.load
  have hactive := ActiveState.isOpenVocabulary.word_ofWord r.active
  have hjob : r.status.jobId.getD 0 = r.jobId ∧ r.status.jobType.getD "" = r.jobType ∧
      r.status.jobPath.getD "/" = r.jobPath := by
    rcases h with hjob | ⟨hid, hpath, htype⟩
    · simp [status, (hasJob_iff r).2 hjob]
    · simp [status, hasJob, hid, hpath, htype]
  obtain ⟨hid, htype, hpath⟩ := hjob
  simp only [ofStatus, hid, htype, hpath]
  simp only [status, hload, hactive, getD_nonEmpty]

/-- Rows are read without loss. A row with job columns that agree is encoded back from the unit, so
that no two of them are read as the same unit, and of any row whatsoever a regular unit is read. The
three vocabularies of the manager are open. -/
theorem status_lossless :
    (∀ r : UnitRow, r.IsConsistent → ofStatus r.status = r) ∧
    (∀ r r' : UnitRow, r.IsConsistent → r'.IsConsistent → r.status = r'.status → r = r') ∧
    (∀ r : UnitRow, r.status.IsRegular) ∧
    IsOpenVocabulary LoadState.ofWord LoadState.word LoadState.unknown
      ["loaded", "not-found", "error", "masked", "stub", "merged", "generated", "transient",
        "bad-setting"] ∧
    IsOpenVocabulary ActiveState.ofWord ActiveState.word ActiveState.unknown
      ["active", "reloading", "inactive", "failed", "activating", "deactivating", "maintenance"] ∧
    IsOpenVocabulary JobOutput.ofWord JobOutput.word JobOutput.other
      ["done", "canceled", "timeout", "failed", "dependency", "skipped"] := by
  refine ⟨fun r => ofStatus_status, fun r r' h h' hs => ?_, isRegular_status,
    LoadState.isOpenVocabulary, ActiveState.isOpenVocabulary, JobOutput.isOpenVocabulary⟩
  calc r = ofStatus r.status := (ofStatus_status h).symm
    _ = ofStatus r'.status := by rw [hs]
    _ = r' := ofStatus_status h'

end UnitRow

end UnitControl
