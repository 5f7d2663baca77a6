import UnitControl.Proofs.Engine.Course

/-!
# What callers are told of changes

What those are told who call for a change of a set is what becomes of their changes, in the same
order.
-/

namespace UnitControl

open Registry (Operation)

/-- The end of a change of a set. -/
abbrev Deed := Operation × Except Error Unit

namespace Entry

/-- The change of a set of whose end an entry tells, with its result. -/
def deed? : Entry → Option Deed
  | operated op result => if op.isChange then some (op, result) else none
  | _ => none

/-- The change of a set of whose end a caller is told, with the result, if these are the calls. -/
def report? (calls : CallerId → Option Call) : Entry → Option Deed
  | answered c (.done result) => ((calls c).bind Call.change?).map (·, result)
  | _ => none

theorem deed?_of_operated? {entry : Entry} (h : entry.operated? = none) : entry.deed? = none := by
  cases entry with
  | operated op result => cases h
  | _ => rfl

theorem report?_of_isSilent {entry : Entry} (h : entry.isSilent = true)
    (calls : CallerId → Option Call) : entry.report? calls = none := by
  cases entry with
  | answered c a => cases h
  | _ => rfl

theorem report?_eq_some_iff {calls : CallerId → Option Call} {entry : Entry} {op : Operation}
    {result : Except Error Unit} : entry.report? calls = some (op, result) ↔
      ∃ c call, entry = .answered c (.done result) ∧ calls c = some call ∧
        call.change? = some op := by
  cases entry with
  | answered c a =>
    cases a with
    | done result' =>
      simp only [report?, Option.map_eq_some_iff, Option.bind_eq_some_iff, Prod.mk.injEq,
        Entry.answered.injEq, Answer.done.injEq]
      constructor
      · rintro ⟨op', ⟨call, hc, hop⟩, rfl, rfl⟩
        exact ⟨c, call, ⟨rfl, rfl⟩, hc, hop⟩
      · rintro ⟨_, call, ⟨rfl, rfl⟩, hc, hop⟩
        exact ⟨op, ⟨call, hc, hop⟩, rfl, rfl⟩
    | _ => simp [report?]
  | _ => simp [report?]

end Entry

namespace Engine

variable {e e' : Engine} {event : Event} {events : List Event} {calls : CallerId → Option Call}
  {c : CallerId} {op : Operation} {task : Task} {added : List Entry}

/-- What callers have been told of changes is what has become of them. -/
def Told (calls : CallerId → Option Call) (e : Engine) : Prop :=
  e.journal.filterMap Entry.deed? = e.journal.filterMap (Entry.report? calls)

theorem mem_record_of_answered {a : Answer} (h : .answered c a ∈ e.journal) :
    .answered c a ∈ e.record :=
  List.mem_filter.2 ⟨h, rfl⟩

theorem not_told_of_absent (hr : e.run events = some e') (hlt : c < e.fresh)
    (hn : e.callers.get? c = none) (hj : e'.journal = added ++ e.journal) (a : Answer) :
    .answered c a ∉ added := by
  intro hm
  have hfate := Fate.run hr hlt (c := c) (by simp [TakesNothingBack, hn])
  have hsame := (hfate.absent hn).2
  have hrecord : e'.record = added.filter Entry.isMilestone ++ e.record := by
    rw [record, hj, List.filter_append, record]
  rw [hrecord, replies, told_append] at hsame
  have hnone : told (Entry.answerTo? c) (added.filter Entry.isMilestone) = [] :=
    List.append_right_eq_self.1 hsame
  have hmem : a ∈ told (Entry.answerTo? c) (added.filter Entry.isMilestone) :=
    mem_told.2 ⟨_, List.mem_filter.2 ⟨hm, rfl⟩, if_pos rfl⟩
  rw [hnone] at hmem
  cases hmem

theorem report?_eq_none (hatt : e.Attained) (h : e.Assigned calls) (hs : e.step event = some e')
    (hkept : ∀ c op, e.awaited? c = some (op, .answer) → op.isChange = true →
      e'.callers.get? c ≠ none)
    (hj : e'.journal = added ++ e.journal) {entry : Entry} (hm : entry ∈ added) :
    entry.report? (fun c => (calls c).or (e.called? c event)) = none := by
  rw [Option.eq_none_iff_forall_ne_some]
  rintro ⟨op, result⟩ hreport
  obtain ⟨c, call, rfl, hc, hop⟩ := Entry.report?_eq_some_iff.1 hreport
  have hgone : e'.callers.get? c = none :=
    ((hatt.moves (moves_of_step hs)).orderly.answered c _
      (mem_record_of_answered (hj ▸ List.mem_append_left _ hm))).2
  obtain hc | ⟨-, hc⟩ := Option.or_eq_some_iff.1 hc
  · cases hw : e.callers.get? c with
    | none =>
      have hr : e.run [event] = some e' := by simp only [run, hs, Option.bind_some]
      exact not_told_of_absent hr (h.numbered c call hc) hw hj _ hm
    | some w =>
      obtain rfl := h.lasts c call _ hc (Call.wait?_of_change? hop) w hw
      exact hkept c op (awaited?_eq_some_iff.2 hw) (Call.isChange_of_change? hop) hgone
  · have hw := (callers_of_called hatt.orderly hs hc).2 _ (Call.wait?_of_change? hop)
    rw [hgone] at hw
    cases hw

theorem reports_of_journal (ho : e.Orderly) (event : Event) :
    e.journal.filterMap (Entry.report? fun c => (calls c).or (e.called? c event)) =
      e.journal.filterMap (Entry.report? calls) := by
  refine List.filterMap_congr fun entry hm => ?_
  cases entry with
  | answered c a =>
    have hlt := (ho.answered c a (mem_record_of_answered hm)).1
    have hnone : e.called? c event = none := by
      rw [Option.eq_none_iff_forall_ne_some]
      intro call hc
      exact Nat.ne_of_lt hlt (called?_eq_some_iff.1 hc).1
    cases a with
    | done result => simp only [Entry.report?, hnone, Option.or_none]
    | _ => rfl
  | _ => rfl

theorem filterMap_deed?_answered {call : Call} {result : Except Error Unit} {earlier : List Entry}
    (hc : calls c = some call) (hop : call.change? = some op)
    (hearlier : ∀ entry ∈ earlier, entry.isSilent = true) :
    (.answered c (.done result) :: .operated op result :: earlier).filterMap Entry.deed? =
      (.answered c (.done result) :: .operated op result :: earlier).filterMap
        (Entry.report? calls) := by
  have hdeed : (Entry.operated op result).deed? = some (op, result) :=
    if_pos (Call.isChange_of_change? hop)
  have hreport : (Entry.answered c (.done result)).report? calls = some (op, result) :=
    Entry.report?_eq_some_iff.2 ⟨c, call, rfl, hc, hop⟩
  have hdeeds : earlier.filterMap Entry.deed? = [] := List.filterMap_eq_nil_iff.2 fun entry hm =>
    Entry.deed?_of_operated? (Entry.operated?_of_isSilent (hearlier entry hm))
  have hreports : earlier.filterMap (Entry.report? calls) = [] :=
    List.filterMap_eq_nil_iff.2 fun entry hm => Entry.report?_of_isSilent (hearlier entry hm) _
  rw [List.filterMap_cons_none (f := Entry.deed?) rfl, List.filterMap_cons_some hdeed, hdeeds,
    List.filterMap_cons_some hreport, List.filterMap_cons_none (f := Entry.report? calls) rfl,
    hreports]

namespace Told

theorem start (capacity : Nat) (timer : Timer) : (Engine.start capacity timer).Told calls := rfl

theorem extend (ho : e.Orderly) (h : e.Told calls) (hj : e'.journal = added ++ e.journal)
    (hadded : added.filterMap Entry.deed? =
      added.filterMap (Entry.report? fun c => (calls c).or (e.called? c event))) :
    e'.Told fun c => (calls c).or (e.called? c event) := by
  rw [Told, hj, List.filterMap_append, List.filterMap_append, hadded, reports_of_journal ho, h]

theorem quiet (hatt : e.Attained) (ha : e.Assigned calls) (h : e.Told calls)
    (hs : e.step event = some e') (hj : e'.journal = added ++ e.journal)
    (hkept : ∀ c op, e.awaited? c = some (op, .answer) → op.isChange = true →
      e'.callers.get? c ≠ none) (hdeeds : ∀ entry ∈ added, entry.deed? = none) :
    e'.Told fun c => (calls c).or (e.called? c event) := by
  refine h.extend hatt.orderly hj ?_
  rw [List.filterMap_eq_nil_iff.2 hdeeds, List.filterMap_eq_nil_iff.2]
  exact fun entry hm => report?_eq_none hatt ha hs hkept hj hm

theorem done (hatt : e.Attained) (ha : e.Assigned calls) (h : e.Told calls)
    (hs : e.step event = some e') (hi : e.Intends task op) {result : Except Error Unit}
    (hothers : ∀ c, task ≠ .caller c → e'.callers.get? c = e.callers.get? c)
    (hend : e.Announces task op result e') :
    e'.Told fun c => (calls c).or (e.called? c event) := by
  obtain ⟨later, earlier, hj, hlater, hearlier, hanswer⟩ := hend
  have hj : e'.journal = (later ++ .operated op result :: earlier) ++ e.journal := by
    rw [hj, List.append_assoc, List.cons_append]
  cases hop : op.isChange with
  | true =>
    obtain ⟨c, rfl, hw, call, hc, hchange⟩ := ha.caller_of_intends hi hop
    have hnew : op.newcomer? = none := by
      cases op <;> first | rfl | cases hop
    obtain rfl := hanswer c rfl hw hnew
    let known : CallerId → Option Call := fun c => (calls c).or (e.called? c event)
    have hknown : known c = some call := by
      simp only [known, hc, Option.some_or]
    exact h.extend hatt.orderly hj (filterMap_deed?_answered hknown hchange hearlier)
  | false =>
    refine h.quiet hatt ha hs hj (fun c op' hw hop' => ?_) fun entry hm => ?_
    · have hne : task ≠ .caller c := by
        rintro rfl
        obtain ⟨finish, hw'⟩ := hi
        cases hw.symm.trans (awaited?_eq_some_iff.2 hw')
        cases hop'.symm.trans hop
      rw [hothers c hne, awaited?_eq_some_iff.1 hw]
      exact Option.some_ne_none _
    · obtain hm | hm := List.mem_append.1 hm
      · exact Entry.deed?_of_operated? (hlater entry hm)
      · obtain rfl | hm := List.mem_cons.1 hm
        · exact if_neg (by simp [hop])
        · exact Entry.deed?_of_operated? (Entry.operated?_of_isSilent (hearlier entry hm))

theorem step (hatt : e.Attained) (ha : e.Assigned calls) (h : e.Told calls)
    (hheld : ∀ holder, e.holder = some holder → ∃ op, e.Intends holder.task op)
    (hs : e.step event = some e') : e'.Told fun c => (calls c).or (e.called? c event) := by
  obtain hu | ⟨task, op, p, hi, -, hp⟩ := turns_of_step hatt.orderly hheld hs
  · obtain ⟨added, hj, hadded⟩ := hu.ends
    refine h.quiet hatt ha hs hj (fun c op hw _ => ?_) fun entry hm =>
      Entry.deed?_of_operated? (hadded entry hm)
    rw [hu.operations c op _ (awaited?_eq_some_iff.1 hw)]
    exact Option.some_ne_none _
  · cases hprogress : p.2 with
    | ask call pause =>
      obtain ⟨-, hi', added, hj, hadded⟩ := hp.ask call pause hprogress
      refine h.quiet hatt ha hs hj (fun c op' hw _ => ?_) fun entry hm =>
        Entry.deed?_of_operated? (hadded entry hm)
      by_cases hc : task = .caller c
      · subst hc
        obtain ⟨finish, hw'⟩ := hi'
        rw [hw']
        exact Option.some_ne_none _
      · rw [hp.others c hc, awaited?_eq_some_iff.1 hw]
        exact Option.some_ne_none _
    | done result => exact h.done hatt ha hs hi hp.others (hp.done result hprogress).2

end Told

end Engine

end UnitControl
