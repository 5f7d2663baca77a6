import UnitControl.Proofs.Dispatcher.Turn
import UnitControl.Engine

/-!
# Histories of jobs

A history is a list of entries, the latest first. It is coherent if each entry about a command, a
job call or an answer is justified by the entries before it.
-/

namespace UnitControl

/-- The history has this entry, and nothing after it is of the kind `p`. -/
def Since (p : Entry → Prop) (entry : Entry) (history : List Entry) : Prop :=
  ∃ later earlier, history = later ++ entry :: earlier ∧ ∀ x ∈ later, ¬p x

section Since

variable {p : Entry → Prop} {entry x : Entry} {l : List Entry}

theorem since_head (p : Entry → Prop) (entry : Entry) (l : List Entry) :
    Since p entry (entry :: l) := ⟨[], l, rfl, by simp⟩

theorem Since.cons (h : Since p entry l) (hx : ¬p x) : Since p entry (x :: l) := by
  obtain ⟨later, earlier, rfl, hl⟩ := h
  refine ⟨x :: later, earlier, rfl, fun y hy => ?_⟩
  rcases List.mem_cons.1 hy with rfl | hy
  · exact hx
  · exact hl y hy

theorem Since.append (h : Since p entry l) {l' : List Entry} (hx : ∀ x ∈ l', ¬p x) :
    Since p entry (l' ++ l) := by
  obtain ⟨later, earlier, rfl, hl⟩ := h
  refine ⟨l' ++ later, earlier, by rw [List.append_assoc], fun y hy => ?_⟩
  rcases List.mem_append.1 hy with hy | hy
  · exact hx y hy
  · exact hl y hy

theorem Since.mem (h : Since p entry l) : entry ∈ l := by
  obtain ⟨later, earlier, rfl, -⟩ := h
  exact List.mem_append_right _ List.mem_cons_self

end Since

/-- The first entry is somewhere before the second. -/
def Precedes (first second : Entry) (history : List Entry) : Prop :=
  ∃ later earlier, history = later ++ second :: earlier ∧ first ∈ earlier

theorem precedes_cons {first second entry : Entry} {l : List Entry} :
    Precedes first second (entry :: l) ↔
      (entry = second ∧ first ∈ l) ∨ Precedes first second l := by
  constructor
  · rintro ⟨later, earlier, he, hm⟩
    cases later with
    | nil =>
      cases he
      exact .inl ⟨rfl, hm⟩
    | cons x later =>
      cases he
      exact .inr ⟨later, earlier, rfl, hm⟩
  · rintro (⟨rfl, hm⟩ | ⟨later, earlier, rfl, hm⟩)
    · exact ⟨[], l, rfl, hm⟩
    · exact ⟨entry :: later, earlier, rfl, hm⟩

theorem Precedes.mem {first second : Entry} {l : List Entry} (h : Precedes first second l) :
    first ∈ l := by
  obtain ⟨later, earlier, rfl, hm⟩ := h
  exact List.mem_append_right _ (List.mem_cons_of_mem _ hm)

theorem Precedes.of_append {first second : Entry} {l earlier : List Entry}
    (h : Precedes first second (l ++ earlier)) (hl : ∀ entry ∈ l, entry ≠ second) :
    Precedes first second earlier := by
  induction l with
  | nil => exact h
  | cons x l ih =>
    rcases precedes_cons.1 h with ⟨rfl, -⟩ | h
    · exact absurd rfl (hl _ List.mem_cons_self)
    · exact ih h fun entry hm => hl entry (List.mem_cons_of_mem _ hm)

/-- When a call returns a path, every caller that was given this path before has its answer. -/
def PathsApart : List Entry → Prop
  | [] => True
  | entry :: earlier =>
    (∀ c path, entry = .jobReturned c (.ok path) →
      ∀ c', Entry.jobReturned c' (.ok path) ∈ earlier → ∃ a, Entry.answered c' a ∈ earlier) ∧
    PathsApart earlier

theorem PathsApart.of_append {later earlier : List Entry} (h : PathsApart (later ++ earlier)) :
    PathsApart earlier := by
  induction later with
  | nil => exact h
  | cons x later ih => exact ih h.2

namespace Entry

/-- The dispatcher makes a job call, or a job call returns. -/
def IsJobCall : Entry → Prop
  | asked (.job ..) | jobReturned .. => True
  | _ => False

/-- The dispatcher takes a signal that reports the end of the job with this path. -/
def Ends (path : String) : Entry → Prop
  | tookSignal item => ∃ output, Signal.reported? item = some (path, output)
  | _ => False

/-- The entries that are justified whatever was before. -/
def IsQuiet : Entry → Prop
  | enqueued _ | asked (.job ..) | jobReturned .. | tookSignal _ | answered .. => False
  | _ => True

theorem IsQuiet.not_isJobCall {entry : Entry} (h : entry.IsQuiet) : ¬entry.IsJobCall := by
  intro hj
  cases entry with
  | asked request => cases request <;> first | exact h | exact hj
  | jobReturned c result => exact h
  | _ => exact hj

theorem IsQuiet.not_ends {entry : Entry} (h : entry.IsQuiet) (path : String) :
    ¬entry.Ends path := by
  intro he
  cases entry with
  | tookSignal item => exact h
  | _ => exact he

end Entry

/-- The job call of a caller is the last one that was made, for the request that the caller has
sent. -/
def Called (c : CallerId) (request : JobRequest) (history : List Entry) : Prop :=
  Since Entry.IsJobCall (.asked (.job c request)) history ∧
    Entry.enqueued (.submit c request) ∈ history

/-- The dispatcher lets a caller go: the path for which it waits was given to another caller, or the
dispatcher has stopped. -/
def LetGo (c : CallerId) (history : List Entry) : Prop :=
  (∃ c' path earlier, history = .jobReturned c' (.ok path) :: earlier ∧
    Since (Entry.Ends path) (.jobReturned c (.ok path)) earlier) ∨
  Entry.stopped ∈ history

/-- What has to be before a caller gets the result of a job. -/
def Answer.Deserved (c : CallerId) (history : List Entry) : Answer → Prop
  | job (.ok output) => ∃ path item earlier, history = .tookSignal item :: earlier ∧
      Signal.reported? item = some (path, output) ∧
      Since (Entry.Ends path) (.jobReturned c (.ok path)) earlier
  | job (.error err) =>
      (∃ earlier, history = .jobReturned c (.error err) :: earlier) ∨
      (err = .dropped ∧ LetGo c history) ∨
      (∃ request d, Entry.enqueued (.submit c request) ∈ history ∧
        err = .jobTimeout request.unit d) ∨
      ∀ request, Entry.enqueued (.submit c request) ∉ history
  | _ => True

def Entry.Justified (history : List Entry) : Entry → Prop
  | enqueued c => (∀ c', Entry.enqueued c' ∈ history → c'.caller ≠ c.caller) ∧
      ∀ a, Entry.answered c.caller a ∉ history
  | asked (.job c request) => Entry.enqueued (.submit c request) ∈ history ∧
      ∀ request', Entry.asked (.job c request') ∉ history
  | jobReturned c _ => ∃ request, Called c request history
  | answered c a => (∀ a', Entry.answered c a' ∉ history) ∧ a.Deserved c history
  | _ => True

theorem Entry.IsQuiet.justified {entry : Entry} (h : entry.IsQuiet) (l : List Entry) :
    entry.Justified l := by
  cases entry with
  | enqueued c => exact h.elim
  | asked request =>
    cases request with
    | job c request => exact h.elim
    | _ => trivial
  | jobReturned c result => exact h.elim
  | answered c a => exact h.elim
  | _ => trivial

def Coherent : List Entry → Prop
  | [] => True
  | entry :: earlier => entry.Justified earlier ∧ Coherent earlier

namespace Coherent

variable {l later earlier : List Entry} {entry : Entry}

theorem append_quiet (h : Coherent l) {l' : List Entry} (hl : ∀ x ∈ l', x.IsQuiet) :
    Coherent (l' ++ l) := by
  induction l' with
  | nil => exact h
  | cons x l' ih =>
    exact ⟨(hl x List.mem_cons_self).justified _,
      ih fun y hy => hl y (List.mem_cons_of_mem _ hy)⟩

theorem of_append (h : Coherent (later ++ earlier)) : Coherent earlier := by
  induction later with
  | nil => exact h
  | cons x later ih => exact ih h.2

theorem justified (h : Coherent (later ++ entry :: earlier)) : entry.Justified earlier :=
  h.of_append.1

theorem enqueued_of_asked (h : Coherent l) {c : CallerId} {request : JobRequest}
    (hm : Entry.asked (.job c request) ∈ l) : Entry.enqueued (.submit c request) ∈ l := by
  obtain ⟨later, earlier, rfl⟩ := List.append_of_mem hm
  have hask : Entry.Justified _ (.asked (.job c request)) := h.justified
  exact List.mem_append_right _ (List.mem_cons_of_mem _ hask.1)

theorem countP_le_one (h : Coherent l) {p : Entry → Bool}
    (hp : ∀ entry earlier, Coherent earlier → entry.Justified earlier → p entry = true →
      ∀ x ∈ earlier, p x = false) : l.countP p ≤ 1 := by
  induction l with
  | nil => exact Nat.zero_le 1
  | cons entry earlier ih =>
    cases he : p entry with
    | false =>
      rw [List.countP_cons_of_neg (by simp [he])]
      exact ih h.2
    | true =>
      have hn : earlier.countP p = 0 :=
        List.countP_eq_zero.2 fun x hx => by simp [hp entry earlier h.2 h.1 he x hx]
      rw [List.countP_cons_of_pos he]
      omega

theorem not_returned {c : CallerId} {request : JobRequest} (h : Coherent l)
    (hc : Called c request l) (result : Except Error String) :
    Entry.jobReturned c result ∉ l := by
  obtain ⟨⟨later, earlier, rfl, hl⟩, -⟩ := hc
  intro hm
  rcases List.mem_append.1 hm with hm | hm
  · exact hl _ hm trivial
  · rcases List.mem_cons.1 hm with hm | hm
    · cases hm
    · obtain ⟨later', earlier', rfl⟩ := List.append_of_mem hm
      have hask : Entry.Justified _ (.asked (.job c request)) := h.justified
      have hret : Entry.Justified _ (.jobReturned c result) := h.of_append.2.justified
      obtain ⟨request', hcalled, -⟩ := hret
      exact hask.2 request' (List.mem_append_right _ (List.mem_cons_of_mem _ hcalled.mem))

end Coherent

namespace Entry

def submits (c : CallerId) : Entry → Bool
  | enqueued (.submit c' _) => c' == c
  | _ => false

def asks (c : CallerId) : Entry → Bool
  | asked (.job c' _) => c' == c
  | _ => false

def returns (c : CallerId) : Entry → Bool
  | jobReturned c' _ => c' == c
  | _ => false

def answers (c : CallerId) : Entry → Bool
  | answered c' _ => c' == c
  | _ => false

theorem submits_eq_true_iff {c : CallerId} {entry : Entry} :
    entry.submits c = true ↔ ∃ request, entry = enqueued (.submit c request) := by
  unfold submits
  split <;> simp_all

theorem asks_eq_true_iff {c : CallerId} {entry : Entry} :
    entry.asks c = true ↔ ∃ request, entry = asked (.job c request) := by
  unfold asks
  split <;> simp_all

theorem returns_eq_true_iff {c : CallerId} {entry : Entry} :
    entry.returns c = true ↔ ∃ result, entry = jobReturned c result := by
  unfold returns
  split <;> simp_all

theorem answers_eq_true_iff {c : CallerId} {entry : Entry} :
    entry.answers c = true ↔ ∃ a, entry = answered c a := by
  unfold answers
  split <;> simp_all

end Entry

namespace Coherent

variable {l : List Entry}

theorem countP_submits (h : Coherent l) (c : CallerId) : l.countP (Entry.submits c) ≤ 1 := by
  apply h.countP_le_one
  intro entry earlier _ hj he x hx
  obtain ⟨request, rfl⟩ := Entry.submits_eq_true_iff.1 he
  refine Bool.eq_false_iff.2 fun hs => ?_
  obtain ⟨request', rfl⟩ := Entry.submits_eq_true_iff.1 hs
  exact hj.1 _ hx rfl

theorem countP_asks (h : Coherent l) (c : CallerId) : l.countP (Entry.asks c) ≤ 1 := by
  apply h.countP_le_one
  intro entry earlier _ hj he x hx
  obtain ⟨request, rfl⟩ := Entry.asks_eq_true_iff.1 he
  refine Bool.eq_false_iff.2 fun hs => ?_
  obtain ⟨request', rfl⟩ := Entry.asks_eq_true_iff.1 hs
  exact hj.2 request' hx

theorem countP_returns (h : Coherent l) (c : CallerId) : l.countP (Entry.returns c) ≤ 1 := by
  apply h.countP_le_one
  intro entry earlier hc hj he x hx
  obtain ⟨result, rfl⟩ := Entry.returns_eq_true_iff.1 he
  refine Bool.eq_false_iff.2 fun hs => ?_
  obtain ⟨result', rfl⟩ := Entry.returns_eq_true_iff.1 hs
  obtain ⟨request, hcalled⟩ := hj
  exact hc.not_returned hcalled result' hx

/-- A caller gets an output from the first signal that reports the job which its own call has
returned. -/
theorem of_answered_ok (h : Coherent l) {c : CallerId} {output : JobOutput}
    (hm : Entry.answered c (.job (.ok output)) ∈ l) :
    ∃ request path id unit word later between earlier,
      l = later ++ .answered c (.job (.ok output)) ::
        .tookSignal (.ok (.jobRemoved id path unit word)) ::
          (between ++ .jobReturned c (.ok path) :: earlier) ∧
      output = .ofWord word ∧ (∀ entry ∈ between, ¬entry.Ends path) ∧
      Called c request earlier := by
  obtain ⟨later, history, rfl⟩ := List.append_of_mem hm
  have hj : Entry.Justified history (.answered c (.job (.ok output))) := h.justified
  obtain ⟨-, path, item, history, rfl, hrep, between, earlier, rfl, hb⟩ := hj
  obtain ⟨id, unit, word, rfl, rfl⟩ := Signal.reported?_eq_some_iff.1 hrep
  have hret : Entry.Justified earlier (.jobReturned c (.ok path)) :=
    h.of_append.2.2.of_append.1
  obtain ⟨request, hcalled⟩ := hret
  exact ⟨request, path, id, unit, word, later, between, earlier, rfl, rfl, hb, hcalled⟩

/-- An error that a caller gets is the one with which its own call has returned, or does not come
from a call. -/
theorem of_answered_error (h : Coherent l) {c : CallerId} {err : Error}
    (hm : Entry.answered c (.job (.error err)) ∈ l) :
    (∃ request later earlier, l = later ++ .answered c (.job (.error err)) ::
        .jobReturned c (.error err) :: earlier ∧ Called c request earlier) ∨
    (err = .dropped ∧ ∃ later earlier, l = later ++ .answered c (.job (.error err)) :: earlier ∧
      LetGo c earlier) ∨
    (∃ request d, Entry.enqueued (.submit c request) ∈ l ∧ err = .jobTimeout request.unit d) ∨
    ∀ request, Entry.enqueued (.submit c request) ∉ l := by
  obtain ⟨later, history, rfl⟩ := List.append_of_mem hm
  have hj : Entry.Justified history (.answered c (.job (.error err))) := h.justified
  obtain ⟨-, ⟨earlier, rfl⟩ | ⟨hd, hl⟩ | ⟨request, d, hsub, ht⟩ | hnot⟩ := hj
  · have hret : Entry.Justified earlier (.jobReturned c (.error err)) := h.of_append.2.1
    obtain ⟨request, hcalled⟩ := hret
    exact .inl ⟨request, later, earlier, rfl, hcalled⟩
  · exact .inr (.inl ⟨hd, later, history, rfl, hl⟩)
  · exact .inr (.inr (.inl ⟨request, d,
      List.mem_append_right _ (List.mem_cons_of_mem _ hsub), ht⟩))
  · refine .inr (.inr (.inr fun request hsub => ?_))
    rcases List.mem_append.1 hsub with hsub | hsub
    · -- no command comes after an answer to its caller
      obtain ⟨later', between, rfl⟩ := List.append_of_mem hsub
      rw [List.append_assoc] at h
      have hj : Entry.Justified _ (.enqueued (.submit c request)) := h.justified
      exact hj.2 _ (List.mem_append_right _ List.mem_cons_self)
    · exact hnot request (by simpa using hsub)

theorem countP_answers (h : Coherent l) (c : CallerId) : l.countP (Entry.answers c) ≤ 1 := by
  apply h.countP_le_one
  intro entry earlier _ hj he x hx
  obtain ⟨a, rfl⟩ := Entry.answers_eq_true_iff.1 he
  refine Bool.eq_false_iff.2 fun hs => ?_
  obtain ⟨a', rfl⟩ := Entry.answers_eq_true_iff.1 hs
  exact hj.1 a' hx

end Coherent

end UnitControl
