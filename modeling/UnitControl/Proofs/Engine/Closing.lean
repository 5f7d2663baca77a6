import UnitControl.Proofs.Engine.Handle
import UnitControl.Proofs.Engine.Members

/-!
# After the end of a set

With the handle of a set goes the last chance to add to it. So the end of the set, of which its
caller is told, is the last word on all of its members.
-/

namespace UnitControl

open Registry (Operation)

namespace Engine

variable {e e' x y z : Engine} {event : Event} {events later last : List Event} {s : SetId}
  {c : CallerId} {calls : CallerId → Option Call}

/-- Sets have handles with the numbers that have been given out. -/
def Numbers (e : Engine) : Prop := ∀ s ∈ e.sets, s < e.fresh

def Gone (s : SetId) (e : Engine) : Prop := s < e.fresh ∧ s ∉ e.sets

theorem sets_of_reaction (hr : e.Reaction event e') (hm : s ∈ e'.sets) :
    s ∈ e.sets ∧ event ≠ .call (.close s) ∨ event = .openSet ∧ s = e.fresh := by
  cases hevent : event.isOfBearings with
  | false =>
    have hsets : e'.sets = e.sets :=
      congrArg (fun b => b.2.1) (sameBearings_of_reaction hr hevent)
    refine .inl ⟨hsets ▸ hm, fun he => ?_⟩
    subst he
    cases hevent
  | true =>
    cases hr with
    | @call call hp =>
      cases call with
      | close t =>
        obtain ⟨hold, hne⟩ := List.mem_filter.1 hm
        refine .inl ⟨hold, fun he => ?_⟩
        cases he
        simp at hne
      | _ => cases hevent
    | openSet hp =>
      obtain hm | hm := List.mem_append.1 hm
      · exact .inl ⟨hm, by simp⟩
      · exact .inr ⟨rfl, List.mem_singleton.1 hm⟩
    | dropSet t => exact .inl ⟨(List.mem_filter.1 hm).1, by simp⟩
    | dropHandle => cases hm
    | tick passed shown => exact .inl ⟨hm, by simp⟩
    | _ => cases hevent

theorem sets_of_step (hs : e.step event = some e') : s ∈ e'.sets →
    s ∈ e.sets ∧ event ≠ .call (.close s) ∨ event = .openSet ∧ s = e.fresh :=
  of_step (P := fun x => s ∈ x.sets → _) hs (fun _ hr => sets_of_reaction hr) fun _ hx => hx

theorem fresh_of_openSet (hs : e.step .openSet = some e') : e'.fresh = e.fresh + 1 :=
  of_step hs (fun _ hr => (shift_of_reaction hr).fresh) fun _ hx => hx

theorem Numbers.step (h : e.Numbers) (hs : e.step event = some e') : e'.Numbers := by
  intro s hm
  obtain ⟨hm, -⟩ | ⟨rfl, rfl⟩ := sets_of_step hs hm
  · exact Nat.lt_of_lt_of_le (h s hm) (fresh_le_of_step hs)
  · rw [fresh_of_openSet hs]
    exact Nat.lt_succ_self _

theorem Gone.step (h : Gone s e) (hs : e.step event = some e') : Gone s e' := by
  refine ⟨Nat.lt_of_lt_of_le h.1 (fresh_le_of_step hs), fun hm => ?_⟩
  obtain ⟨hm, -⟩ | ⟨-, hm⟩ := sets_of_step hs hm
  · exact h.2 hm
  · exact Nat.ne_of_lt h.1 hm

theorem mem_sets_of_call {call : Call} (hset : call.set? = some s)
    (hs : e.step (.call call) = some x) : s ∈ e.sets := by
  obtain ⟨x', hr, -⟩ := reaction_of_step hs
  cases hr with
  | call hp =>
    rw [permits, hset] at hp
    exact List.contains_iff_mem.1 hp

theorem gone_of_close (h : e.Numbers) (hs : e.step (.call (.close s)) = some x) : Gone s x := by
  have hlt := h s (mem_sets_of_call rfl hs)
  refine ⟨Nat.lt_of_lt_of_le hlt (fresh_le_of_step hs), fun hm => ?_⟩
  obtain ⟨-, hne⟩ | ⟨he, -⟩ := sets_of_step hs hm
  · exact hne rfl
  · cases he

theorem Gone.set?_of_callOf (h : Gone s e) (hr : e.run events = some e') {call : Call}
    (hc : e.callOf c events = some call) : call.set? ≠ some s := by
  induction events generalizing e with
  | nil => cases hc
  | cons event rest ih =>
    obtain ⟨x, hs, hr⟩ := Option.bind_eq_some_iff.1 hr
    obtain hcall | ⟨-, hc⟩ := Option.or_eq_some_iff.1 hc
    · obtain ⟨-, rfl⟩ := called?_eq_some_iff.1 hcall
      exact fun hset => h.2 (mem_sets_of_call hset hs)
    · rw [hs, Option.bind_some] at hc
      exact ih (h.step hs) hr hc

theorem Gone.run (h : Gone s e) (hr : e.run events = some e') : Gone s e' :=
  run_keeps (fun hx hs => hx.step hs) h hr

theorem Numbers.run (h : e.Numbers) (hr : e.run events = some e') : e'.Numbers :=
  run_keeps (fun hx hs => hx.step hs) h hr

theorem gone_of_callOf (h : e.Numbers) (hr : e.run events = some e')
    (hc : e.callOf c events = some (.close s)) : Gone s e' := by
  induction events generalizing e with
  | nil => cases hc
  | cons event rest ih =>
    obtain ⟨x, hs, hrest⟩ := Option.bind_eq_some_iff.1 hr
    obtain hcall | ⟨-, hc⟩ := Option.or_eq_some_iff.1 hc
    · obtain ⟨-, rfl⟩ := called?_eq_some_iff.1 hcall
      exact (gone_of_close h hs).run hrest
    · rw [hs, Option.bind_some] at hc
      exact ih (h.step hs) hrest hc

theorem eq_add_of_change? {call : Call} {unit : String}
    (h : call.change? = some (.add s unit)) : ∃ name, call = .add s name := by
  cases call with
  | add t name =>
    obtain ⟨v, -, hv⟩ := Option.map_eq_some_iff.1 h
    cases hv
    exact ⟨name, rfl⟩
  | remove t name =>
    obtain ⟨v, -, hv⟩ := Option.map_eq_some_iff.1 h
    cases hv
  | _ => cases h

/-- The handle of a set is gone, and nobody waits for an addition to it any more. -/
structure AddsNoMore (calls : CallerId → Option Call) (s : SetId) (e : Engine) : Prop where
  gone : Gone s e
  silent : ∀ c name, calls c = some (.add s name) → e.callers.get? c = none

theorem addsNoMore_of_close (h : e.Traced calls) (hn : e.Numbers)
    (hs : e.step (.call (.close s)) = some x)
    (hsilent : ∀ c name, calls c = some (.add s name) → e.callers.get? c = none) :
    AddsNoMore (fun c => (calls c).or (e.called? c (.call (.close s)))) s x where
  gone := gone_of_close hn hs
  silent c name hc := by
    obtain hc | ⟨-, hc⟩ := Option.or_eq_some_iff.1 hc
    · have hnone := hsilent c name hc
      have hlt := h.assigned.numbered c _ hc
      exact ((Fate.step hs hlt (by simp [TakesNothingBack, hnone])).absent hnone).1
    · cases (called?_eq_some_iff.1 hc).2

namespace AddsNoMore

variable {unit : String} {added : List Entry}

theorem verdict_ne (h : AddsNoMore calls s e) (ht : e.Traced calls) (hr : e.run events = some e')
    (hj : e'.journal = added ++ e.journal) {deed : Deed}
    (hm : deed ∈ added.filterMap (Entry.report? fun c => (calls c).or (e.callOf c events))) :
    deed.verdict s unit ≠ some true := by
  intro hv
  obtain ⟨op, result⟩ := deed
  obtain rfl := Operation.eq_add_of_verdict hv
  obtain ⟨entry, hentry, hreport⟩ := List.mem_filterMap.1 hm
  obtain ⟨c, call, rfl, hc, hop⟩ := Entry.report?_eq_some_iff.1 hreport
  obtain ⟨name, rfl⟩ := eq_add_of_change? hop
  obtain hc | ⟨-, hc⟩ := Option.or_eq_some_iff.1 hc
  · have hlt := ht.assigned.numbered c _ hc
    exact not_told_of_absent hr hlt (h.silent c name hc) hj _ hentry
  · exact h.gone.set?_of_callOf hr hc rfl

theorem lastWord (h : AddsNoMore calls s e) (ht : e.Traced calls) (hc : calls c = some (.close s))
    (hw : e.callers.get? c ≠ none) (hr : e.run events = some e') {result : Except Error Unit}
    (ha : .answered c (.done result) ∈ e'.journal) :
    e'.lastWord (fun c => (calls c).or (e.callOf c events)) s unit = some false := by
  obtain ⟨added, hj⟩ := ht.journal_of_run hr
  have hnew : .answered c (.done result) ∈ added := by
    rw [← hj] at ha
    refine (List.mem_append.1 ha).resolve_right fun hold => hw ?_
    exact (ht.attained.orderly.answered c _ (mem_record_of_answered hold)).2
  let deeds := added.filterMap (Entry.report? fun c => (calls c).or (e.callOf c events))
  have hdeed : ((.detach s none true, result) : Deed) ∈ deeds := by
    refine List.mem_filterMap.2 ⟨_, hnew, Entry.report?_eq_some_iff.2 ⟨c, .close s, rfl, ?_, rfl⟩⟩
    rw [hc, Option.some_or]
  have hfound : deeds.findSome? (Deed.verdict s unit) = some false := by
    have hsome : (deeds.findSome? (Deed.verdict s unit)).isSome = true :=
      List.findSome?_isSome_iff.2 ⟨_, hdeed, by simp [Deed.verdict, Operation.verdict]⟩
    obtain ⟨b, hb⟩ := Option.isSome_iff_exists.1 hsome
    obtain ⟨deed, hmem, hv⟩ := List.exists_of_findSome?_eq_some hb
    cases b with
    | true => exact absurd hv (h.verdict_ne ht hr hj.symm hmem)
    | false => exact hb
  rw [Engine.lastWord, ← hj, List.filterMap_append, List.findSome?_append, hfound]
  rfl

end AddsNoMore

end Engine

end UnitControl
