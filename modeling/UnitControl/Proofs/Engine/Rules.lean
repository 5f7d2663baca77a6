import UnitControl.Proofs.Bus.MatchRule
import UnitControl.Proofs.Engine.References
import UnitControl.Proofs.Registry.Rules
import Mathlib.Data.Int.Notation
import Mathlib.Data.List.Induction

/-!
# Match rules follow the references

The calls for the rule of one unit add it and remove it in turn, apart from those that failed to add
it. Between two operations the rule was added last if and only if the unit has references.
-/

namespace UnitControl

/-- Calls for match rules and what the bus said to them, the oldest first. -/
abbrev MatchLog := List (MatchCall × Except Error Unit)

namespace MatchLog

/-- Whether a call adds a rule or is to remove one. A call that failed to add a rule is left out. -/
def effect? : MatchCall × Except Error Unit → Option Bool
  | (.add _, .ok _) => some true
  | (.add _, .error _) => none
  | (.remove _, _) => some false

def effects (log : MatchLog) : List Bool := log.filterMap effect?

def isAddition : MatchCall × Except Error Unit → Bool
  | (.add _, .ok _) => true
  | _ => false

def isRemoval : MatchCall × Except Error Unit → Bool
  | (.remove _, .ok _) => true
  | _ => false

def isFailedRemoval : MatchCall × Except Error Unit → Bool
  | (.remove _, .error _) => true
  | _ => false

/-- The calls for the rule of a unit, by the text of the rule. -/
def ofUnit (log : MatchLog) (unit : String) : MatchLog :=
  log.filter fun p => p.1.rule.text = (MatchRule.unit unit).text

/-- What is added and what is removed comes in turn, and an addition is first. -/
def Alternates (effects : List Bool) : Prop :=
  ∀ i b, effects[i]? = some b → (b = true ↔ i % 2 = 0)

theorem alternates_snoc {l : List Bool} {b : Bool} :
    Alternates (l ++ [b]) ↔ Alternates l ∧ (b = true ↔ l.length % 2 = 0) := by
  constructor
  · intro h
    refine ⟨fun i x hi => h i x ?_, h l.length b (by simp)⟩
    obtain ⟨hlt, -⟩ := List.getElem?_eq_some_iff.1 hi
    rwa [List.getElem?_append_left hlt]
  · rintro ⟨h, hb⟩ i x hi
    rcases Nat.lt_trichotomy i l.length with hlt | rfl | hgt
    · rw [List.getElem?_append_left hlt] at hi
      exact h i x hi
    · rw [List.getElem?_concat_length] at hi
      cases hi
      exact hb
    · have hlen : (l ++ [b]).length ≤ i := by simpa using Nat.succ_le_of_lt hgt
      rw [List.getElem?_eq_none hlen] at hi
      cases hi

theorem Alternates.count {l : List Bool} (h : Alternates l) :
    l.count true = l.count false + l.length % 2 := by
  induction l using List.reverseRecOn with
  | nil => rfl
  | append_singleton l b ih =>
    obtain ⟨hl, hb⟩ := alternates_snoc.1 h
    have ih := ih hl
    simp only [List.count_append, List.count_singleton, List.length_append, List.length_singleton]
    cases b with
    | true =>
      have he : l.length % 2 = 0 := hb.1 rfl
      simp
      omega
    | false =>
      have he : ¬l.length % 2 = 0 := fun h0 => Bool.false_ne_true (hb.2 h0)
      simp
      omega

theorem count_true_effects (log : MatchLog) :
    (effects log).count true = log.countP isAddition := by
  induction log with
  | nil => rfl
  | cons p log ih =>
    obtain ⟨call, result⟩ := p
    have ih : (List.filterMap effect? log).count true = log.countP isAddition := ih
    cases call <;> cases result <;>
      simp [effects, effect?, isAddition, List.filterMap_cons, List.countP_cons, ih]

theorem count_false_effects (log : MatchLog) :
    (effects log).count false = log.countP isRemoval + log.countP isFailedRemoval := by
  induction log with
  | nil => rfl
  | cons p log ih =>
    obtain ⟨call, result⟩ := p
    have ih : (List.filterMap effect? log).count false = _ := ih
    cases call <;> cases result <;>
      simp [effects, effect?, isRemoval, isFailedRemoval, List.filterMap_cons, List.countP_cons,
        ih] <;> omega

theorem ofUnit_snoc (log : MatchLog) (call : MatchCall) (result : Except Error Unit)
    (unit : String) :
    ofUnit (log ++ [(call, result)]) unit =
      if call.unit = unit then ofUnit log unit ++ [(call, result)] else ofUnit log unit := by
  have ht : call.rule.text = (MatchRule.unit unit).text ↔ call.unit = unit :=
    ⟨MatchRule.text_unit_injective, fun h => h ▸ rfl⟩
  unfold ofUnit
  rw [List.filter_append]
  by_cases hu : call.unit = unit
  · rw [if_pos hu, List.filter_cons_of_pos (by simpa using ht.2 hu), List.filter_nil]
  · have hne : ¬call.rule.text = (MatchRule.unit unit).text := fun h => hu (ht.1 h)
    rw [if_neg hu, List.filter_cons_of_neg (by simpa using hne), List.filter_nil, List.append_nil]

end MatchLog

namespace Entry

def matchAsked? : Entry → Option MatchCall
  | asked (.matchRule call) => some call
  | _ => none

def matchReturned? : Entry → Option (MatchCall × Except Error Unit)
  | matchReturned call result => some (call, result)
  | _ => none

end Entry

namespace Engine

/-- The calls for match rules that have been made, the oldest first. -/
def matchCalls (e : Engine) : List MatchCall := (e.journal.filterMap Entry.matchAsked?).reverse

/-- Those that the bus has answered. -/
def matchLog (e : Engine) : MatchLog := (e.journal.filterMap Entry.matchReturned?).reverse

variable {e e' : Engine}

theorem matchCalls_eq (e : Engine) :
    e.matchCalls = (e.record.filterMap Entry.matchAsked?).reverse := by
  rw [matchCalls, filterMap_record]
  intro entry h
  cases entry with
  | asked request => cases request <;> first | rfl | cases h
  | _ => rfl

theorem matchLog_eq (e : Engine) :
    e.matchLog = (e.record.filterMap Entry.matchReturned?).reverse := by
  rw [matchLog, filterMap_record]
  intro entry h
  cases entry <;> first | rfl | cases h

theorem matchCalls_append {l : List Entry} (h : e'.record = l ++ e.record)
    (hl : ∀ entry ∈ l, entry.matchAsked? = none) : e'.matchCalls = e.matchCalls := by
  have hn : l.filterMap Entry.matchAsked? = [] := List.filterMap_eq_nil_iff.2 hl
  rw [matchCalls_eq, matchCalls_eq, h, List.filterMap_append, hn, List.nil_append]

theorem matchLog_append {l : List Entry} (h : e'.record = l ++ e.record)
    (hl : ∀ entry ∈ l, entry.matchReturned? = none) : e'.matchLog = e.matchLog := by
  have hn : l.filterMap Entry.matchReturned? = [] := List.filterMap_eq_nil_iff.2 hl
  rw [matchLog_eq, matchLog_eq, h, List.filterMap_append, hn, List.nil_append]

theorem matchLog_alike (h : Alike e e') : e'.matchLog = e.matchLog := by
  rw [matchLog_eq, matchLog_eq, h.record]

theorem matchLog_book (e : Engine) (task : Task) (p : Registry × Registry.Progress) :
    (e.book task p).matchLog = e.matchLog := by
  obtain ⟨l, hr, hl⟩ := record_book e task p
  refine matchLog_append hr fun entry hm => ?_
  obtain ⟨call, rfl⟩ | ⟨id, outcome, rfl⟩ := hl entry hm <;> rfl

theorem matchLog_note_returned (e : Engine) (call : MatchCall) (answer : Except Error Unit) :
    (e.note (.matchReturned call answer)).matchLog = e.matchLog ++ [(call, answer)] := by
  simp [matchLog, note, Entry.matchReturned?]

open MatchLog

/-- The call for which the holder of the registry waits. -/
def openCall? (e : Engine) : Option MatchCall := e.holder.map Holder.call

structure Follows (e : Engine) : Prop where
  calls : e.matchCalls = e.matchLog.map Prod.fst ++ e.openCall?.toList
  unreferenced : ∀ call, e.openCall? = some call → e.registry.count call.unit = 0
  alternates : ∀ unit, Alternates (e.matchLog.ofUnit unit).effects
  /-- A rule that is about to be removed counts as added until the bus has answered. -/
  added : ∀ unit, (e.matchLog.ofUnit unit).effects.length % 2 = 1 ↔
    0 < e.registry.count unit ∨ e.openCall? = some (.remove unit)

namespace Follows

theorem start (capacity : Nat) (timer : Timer) : (Engine.start capacity timer).Follows where
  calls := rfl
  unreferenced call h := by cases h
  alternates unit i b h := by cases h
  added unit := by
    constructor
    · intro h
      cases h
    · rintro (h | h) <;> cases h

theorem extend (h : e.Follows) (hr : e'.registry = e.registry) (hh : e'.holder = e.holder)
    {l : List Entry} (hl : e'.record = l ++ e.record)
    (hn : ∀ entry ∈ l, entry.matchAsked? = none ∧ entry.matchReturned? = none) : e'.Follows := by
  have hc : e'.matchCalls = e.matchCalls := matchCalls_append hl fun entry hm => (hn entry hm).1
  have hlog : e'.matchLog = e.matchLog := matchLog_append hl fun entry hm => (hn entry hm).2
  have ho : e'.openCall? = e.openCall? := by rw [openCall?, openCall?, hh]
  constructor
  · rw [hc, hlog, ho]
    exact h.calls
  · rw [hr, ho]
    exact h.unreferenced
  · rw [hlog]
    exact h.alternates
  · rw [hlog, hr, ho]
    exact h.added

theorem alike (ha : Alike e e') (h : e.Follows) : e'.Follows :=
  h.extend ha.registry ha.holder (l := []) ha.record (by simp)

theorem answer (h : e.Follows) (id : CallerId) (a : Answer) : (e.answer id a).Follows := by
  obtain ⟨l, hr, hl⟩ := record_answer_append e id a
  refine h.extend (registry_answer e id a) (holder_answer e id a) hr fun entry hm => ?_
  rw [hl entry hm]
  exact ⟨rfl, rfl⟩

theorem note (h : e.Follows) {entry : Entry} (hm : entry.isMilestone = true)
    (hn : entry.matchAsked? = none ∧ entry.matchReturned? = none) : (e.note entry).Follows := by
  refine h.extend rfl rfl (l := [entry]) ?_ (by simpa using hn)
  rw [record_note, if_pos hm]
  rfl

theorem dispatch (h : e.Follows) (r : Dispatcher × List Reply) : (e.dispatch r).Follows := by
  have hd : { e with dispatcher := r.1 }.Follows := h.extend rfl rfl (l := []) rfl (by simp)
  exact answerAll_induct hd fun _ reply _ h => h.answer reply.1 reply.2

theorem noteCall (h : e.Follows) : e.noteCall.Follows := by
  unfold Engine.noteCall
  split
  · exact h.note rfl ⟨rfl, rfl⟩
  · exact h

theorem returned (h : e.Follows) {call : MatchCall} (hc : e.openCall? = some call)
    (answer : Except Error Unit) (unit : String) :
    Alternates (effects (ofUnit (e.matchLog ++ [(call, answer)]) unit)) ∧
      ((effects (ofUnit (e.matchLog ++ [(call, answer)]) unit)).length % 2 = 1 ↔
        0 < (e.registry.answered call answer).count unit) := by
  have halt := h.alternates unit
  have hadd := h.added unit
  rw [hc] at hadd
  rw [ofUnit_snoc]
  by_cases hu : call.unit = unit
  · have hzero : e.registry.count unit = 0 := hu ▸ h.unreferenced call hc
    rw [if_pos hu, effects, List.filterMap_append]
    change Alternates (effects _ ++ _) ∧ ((effects _ ++ _).length % 2 = 1 ↔ _)
    generalize effects (e.matchLog.ofUnit unit) = l at halt hadd ⊢
    cases call with
    | add v =>
      have hv : v = unit := hu
      subst hv
      have heven : l.length % 2 = 1 ↔ 0 < e.registry.count v := by simpa using hadd
      cases answer with
      | error err =>
        have hs : [(MatchCall.add v, Except.error err)].filterMap effect? = [] := rfl
        rw [hs, List.append_nil]
        exact ⟨halt, heven⟩
      | ok u =>
        have hl : l.length % 2 = 0 := by omega
        refine ⟨alternates_snoc.2 ⟨halt, by simp [hl]⟩, ?_⟩
        simp only [Registry.answered, Registry.count_hold, if_true, List.length_append]
        change (l.length + 1) % 2 = 1 ↔ _
        omega
    | remove v =>
      have hv : v = unit := hu
      subst hv
      have hodd : l.length % 2 = 1 := hadd.2 (.inr rfl)
      have hs : [(MatchCall.remove v, answer)].filterMap effect? = [false] := by
        cases answer <;> rfl
      have hr : e.registry.answered (.remove v) answer = e.registry := by
        cases answer <;> rfl
      rw [hs, hr]
      refine ⟨alternates_snoc.2 ⟨halt, by simp [hodd]⟩, ?_⟩
      simp only [List.length_append, List.length_singleton]
      omega
  · rw [if_neg hu]
    have hne : ¬call = .remove unit := by
      rintro rfl
      exact hu rfl
    have hcount : (e.registry.answered call answer).count unit = e.registry.count unit := by
      cases call with
      | remove v => cases answer <;> rfl
      | add v =>
        have hv : ¬unit = v := fun hv => hu hv.symm
        cases answer with
        | error err => rfl
        | ok u => rw [Registry.answered, Registry.count_hold, if_neg hv]
    rw [hcount]
    exact ⟨halt, by simpa [hne] using hadd⟩

theorem book {task : Task} {p : Registry × Registry.Progress} {before : Registry}
    (hh : e.holder = none) (hk : Registry.Keeps before p)
    (hcalls : e.matchCalls = e.matchLog.map Prod.fst)
    (halt : ∀ unit, Alternates (e.matchLog.ofUnit unit).effects)
    (hadd : ∀ unit, (e.matchLog.ofUnit unit).effects.length % 2 = 1 ↔ 0 < before.count unit) :
    (e.book task p).Follows := by
  obtain ⟨r, progress⟩ := p
  cases progress with
  | done result =>
    have ho : (e.book task (r, .done result)).openCall? = none := by
      rw [openCall?, book_done, holder_settle, hh]
      rfl
    obtain ⟨answers, hr, ha⟩ := record_settle { e with registry := r } task result
    have hc : (e.book task (r, .done result)).matchCalls = e.matchCalls :=
      matchCalls_append hr fun entry hm => by
        obtain ⟨id, outcome, rfl⟩ := ha entry hm
        rfl
    have hlog : (e.book task (r, .done result)).matchLog = e.matchLog := matchLog_book e task _
    constructor
    · rw [hc, hlog, ho, hcalls, Option.toList_none, List.append_nil]
    · intro call hcall
      rw [ho] at hcall
      cases hcall
    · rw [hlog]
      exact halt
    · intro unit
      rw [hlog, ho, registry_book, hadd unit, hk.referenced unit]
      simp [Registry.Progress.call?]
  | ask call pause =>
    have hr : (e.book task (r, .ask call pause)).record =
        [.asked (.matchRule call)] ++ e.record := record_note _ _
    have hc : (e.book task (r, .ask call pause)).matchCalls = e.matchCalls ++ [call] := by
      rw [matchCalls_eq, matchCalls_eq, hr, List.filterMap_append, List.reverse_append]
      rfl
    have hlog : (e.book task (r, .ask call pause)).matchLog = e.matchLog := matchLog_book e task _
    have ho : (e.book task (r, .ask call pause)).openCall? = some call := rfl
    constructor
    · rw [hc, hlog, ho, hcalls, Option.toList_some]
    · intro call' hcall
      rw [ho] at hcall
      cases hcall
      exact hk.count_call call rfl
    · rw [hlog]
      exact halt
    · intro unit
      rw [hlog, ho, registry_book, hadd unit, hk.referenced unit]
      simp [Registry.Progress.call?]

theorem operate (ha : e.Accounts) (h : e.Follows) {task : Task} {op : Registry.Operation}
    (hh : e.holder = none) : (e.book task (e.registry.begin op)).Follows := by
  have ho : e.openCall? = none := by rw [openCall?, hh]; rfl
  have hcalls := h.calls
  have hadd := h.added
  rw [ho, Option.toList_none, List.append_nil] at hcalls
  simp only [ho, reduceCtorEq, or_false] at hadd
  exact book hh (Registry.keeps_begin (ha.free hh).stored_ne_zero op) hcalls h.alternates hadd

theorem resume (ha : e.Accounts) (h : e.Follows) {holder : Holder} (answer : Except Error Unit)
    (hh : e.holder = some holder) :
    (({ e with holder := none }.note (.matchReturned holder.call answer)).book holder.task
      (e.registry.resume answer holder.pause)).Follows := by
  obtain ⟨hb, hw⟩ := ha.held holder hh
  have ho : e.openCall? = some holder.call := by rw [openCall?, hh]; rfl
  have hr : ({ e with holder := none }.note (.matchReturned holder.call answer)).record =
      [.matchReturned holder.call answer] ++ e.record := record_note _ _
  have hc : ({ e with holder := none }.note (.matchReturned holder.call answer)).matchCalls =
      e.matchCalls := matchCalls_append hr (by simp [Entry.matchAsked?])
  have hlog : ({ e with holder := none }.note (.matchReturned holder.call answer)).matchLog =
      e.matchLog ++ [(holder.call, answer)] := matchLog_note_returned _ _ _
  apply book rfl (Registry.keeps_resume answer hb.stored_ne_zero hw)
  · rw [hc, hlog, h.calls, ho, List.map_append]
    rfl
  · intro unit
    rw [hlog]
    exact (h.returned ho answer unit).1
  · intro unit
    rw [hlog]
    exact (h.returned ho answer unit).2

theorem move (ha : e.Accounts) (h : e.Follows) (hm : Move e e') : e'.Follows := by
  cases hm with
  | rest => exact h
  | number => exact h.extend rfl rfl (l := []) rfl (by simp)
  | refuse ha hd =>
    exact h.extend rfl rfl (l := [_]) (record_note _ _)
      (by simp [Entry.matchAsked?, Entry.matchReturned?])
  | enrol hw => exact h.extend rfl rfl (l := []) rfl (by simp)
  | submit hs hl =>
    exact h.extend rfl rfl (l := [_]) (record_note _ _)
      (by simp [Entry.matchAsked?, Entry.matchReturned?])
  | count hs =>
    exact h.extend rfl rfl (l := [_]) (record_note _ _)
      (by simp [Entry.matchAsked?, Entry.matchReturned?])
  | serve hw hk hr => exact h.answer _ _
  | expire hw => exact h.answer _ _
  | operate hh hi => exact operate ha h hh
  | resume answer hh => exact resume ha h answer hh
  | arrive item =>
    exact h.extend rfl rfl (l := [_]) (record_note _ _)
      (by simp [Entry.matchAsked?, Entry.matchReturned?])
  | endSignals => exact h.extend rfl rfl (l := []) rfl (by simp)
  | takeCommand hr => exact (h.dispatch _).noteCall
  | callReturn hs hr => exact (h.note rfl ⟨rfl, rfl⟩).dispatch _
  | takeSignal hi hr => exact (h.note rfl ⟨rfl, rfl⟩).dispatch _
  | stop hs => exact (h.note rfl ⟨rfl, rfl⟩).dispatch _

end Follows

theorem Attained.follows (h : e.Attained) : e.Follows := by
  induction h with
  | start capacity timer => exact .start capacity timer
  | alike _ ha ih => exact ih.alike ha
  | move h hm ih => exact ih.move h.accounts hm

/-- Between two operations all calls for match rules have been answered. Those for the rule of a
unit that did not fail to add it are additions and removals in turn; and the rule has been added
once more than it was removed if the unit has references, and once more for each removal that has
failed. If none has, the number of references that the engine reports tells whether the bus has the
rule. -/
theorem Reachable.rules_follow_references (h : e.Reachable) (hn : e.holder = none)
    (unit : String) :
    e.matchCalls = e.matchLog.map Prod.fst ∧
    Alternates (e.matchLog.ofUnit unit).effects ∧
    (List.countP isAddition (e.matchLog.ofUnit unit) : ℤ) -
        List.countP isRemoval (e.matchLog.ofUnit unit) =
      (if 0 < e.registry.count unit then 1 else 0) +
        List.countP isFailedRemoval (e.matchLog.ofUnit unit) ∧
    (List.countP isFailedRemoval (e.matchLog.ofUnit unit) = 0 →
      ∃ n, e.respond (.references unit) = .references n ∧
        List.countP isAddition (e.matchLog.ofUnit unit) =
          List.countP isRemoval (e.matchLog.ofUnit unit) + if 0 < n then 1 else 0) := by
  have hf := h.attained.follows
  have ho : e.openCall? = none := by rw [openCall?, hn]; rfl
  have hcalls := hf.calls
  have halt := hf.alternates unit
  have hadd := hf.added unit
  rw [ho, Option.toList_none, List.append_nil] at hcalls
  simp only [ho, reduceCtorEq, or_false] at hadd
  have hcount := halt.count
  rw [count_true_effects, count_false_effects] at hcount
  refine ⟨hcalls, halt, ?_, fun hfail => ⟨e.registry.count unit, rfl, ?_⟩⟩
  · split <;> omega
  · split <;> omega

/-- A unit is added, removed and added again, the last time after a failure of the bus. -/
def readding : List Event :=
  [.openSet, .call (.add 0 "a.service"), .grant (.caller 1), .matchReturned (.ok ()),
    .call (.remove 0 "a.service"), .grant (.caller 2), .matchReturned (.ok ()),
    .call (.add 0 "a.service"), .grant (.caller 3), .matchReturned (.error (.ioError "bus")),
    .call (.add 0 "a.service"), .grant (.caller 4), .matchReturned (.ok ())]

theorem Reachable.rules_follow_references_readding :
    ∃ e, (Engine.start 1 .exact).run readding = some e ∧ e.holder = none ∧
      e.matchLog = [(.add "a.service", .ok ()), (.remove "a.service", .ok ()),
        (.add "a.service", .error (.ioError "bus")), (.add "a.service", .ok ())] ∧
      ∃ n, e.respond (.references "a.service") = .references n ∧
        List.countP isAddition (e.matchLog.ofUnit "a.service") =
          List.countP isRemoval (e.matchLog.ofUnit "a.service") + if 0 < n then 1 else 0 := by
  have hr : (Engine.start 1 .exact).run readding = some _ := rfl
  have h := Reachable.rules_follow_references ⟨1, .exact, readding, hr⟩ rfl "a.service"
  refine ⟨_, hr, rfl, rfl, h.2.2.2 (List.countP_eq_zero.2 fun p hp => ?_)⟩
  have hm : p ∈ [(MatchCall.add "a.service", Except.ok ()), (.remove "a.service", .ok ()),
      (.add "a.service", .error (.ioError "bus")), (.add "a.service", .ok ())] :=
    (List.mem_filter.1 hp).1
  simp only [List.mem_cons, List.not_mem_nil, or_false] at hm
  obtain rfl | rfl | rfl | rfl := hm <;> exact Bool.false_ne_true

end Engine

end UnitControl
