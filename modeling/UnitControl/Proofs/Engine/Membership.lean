import UnitControl.Proofs.Engine.Closing
import UnitControl.Proofs.Engine.Places
import UnitControl.Proofs.Engine.Restriction
import UnitControl.Proofs.Listing.Patch
import UnitControl.Proofs.Poller.Farewell
import Mathlib.Data.String.Basic

/-!
# Sets as those who use them know them

Callers can tell from their answers alone which units are in a set. Nothing that happens to the
sinks of a set makes a difference to that.
-/

namespace UnitControl

open Registry (Operation)

theorem Registry.pairwise_mergeSort_members (r : Registry) (s : SetId) :
    (r.members s).mergeSort.Pairwise (· < ·) := by
  have hnodup : (r.members s).mergeSort.Nodup :=
    (List.mergeSort_perm _ _).nodup_iff.2 (r.set s).distinct
  have hsorted : (r.members s).mergeSort.Pairwise (· ≤ ·) := by
    have h := @List.pairwise_mergeSort _ (fun a b => decide (a ≤ b))
      (fun a b c hab hbc => by simpa using le_trans (of_decide_eq_true hab) (of_decide_eq_true hbc))
      (fun a b => by simpa using le_total a b) (r.members s)
    exact h.imp of_decide_eq_true
  exact (hsorted.and hnodup).imp fun ⟨hle, hne⟩ => lt_of_le_of_ne hle hne

namespace Engine

variable {e e' x y z e₀ e₁ : Engine} {event : Event} {events later last mid : List Event}
  {s : SetId} {c : CallerId} {calls : CallerId → Option Call}

theorem journal_of_grant_query (hreach : e.Reachable) (h : e.Traced calls) {call : Call} {q : Query}
    (hc : calls c = some call) (hq : call.wait? = some (.query q))
    (hs : e.step (.grant (.caller c)) = some x) :
    e.holder = none ∧ x.journal = .answered c (e.respond q) :: e.journal := by
  refine of_step hs (fun x' hr => ?_) fun _ hx => hx
  cases hr with
  | grant hh hqueue =>
    have hwants := hreach.wants_of_mem_queue (List.contains_iff_mem.1 hqueue)
    obtain ⟨w, hw, -⟩ := (Option.any_eq_true _ _).1 hwants
    obtain rfl := h.assigned.lasts c call _ hc hq w hw
    refine ⟨hh, ?_⟩
    have hcontains : e.callers.contains c = true := Table.contains_of_get? hw
    simp only [enter, hw, answer, hcontains, if_true]
    rfl

/-- When the end of a set has been told, nothing is in it, and nothing comes to be in it. -/
theorem members_of_closed (h : e.Traced calls) (hn : e.Numbers)
    (hs : e.step (.call (.close s)) = some x)
    (hsilent : ∀ c name, calls c = some (.add s name) → e.callers.get? c = none)
    (hr : x.run events = some z) {result : Except Error Unit}
    (ha : .answered e.fresh (.done result) ∈ z.journal) : z.registry.members s = [] := by
  have hx := h.step hs
  have hcalled : e.called? e.fresh (.call (.close s)) = some (.close s) :=
    called?_eq_some_iff.2 ⟨rfl, rfl⟩
  have hc : (calls e.fresh).or (e.called? e.fresh (.call (.close s))) = some (.close s) := by
    cases hold : calls e.fresh with
    | none => exact hcalled
    | some call => exact absurd (h.assigned.numbered _ _ hold) (Nat.lt_irrefl _)
  have hw : x.callers.get? e.fresh ≠ none := by
    rw [(callers_of_called h.attained.orderly hs hcalled).2 _ rfl]
    exact Option.some_ne_none _
  refine List.eq_nil_iff_forall_not_mem.2 fun unit hm => ?_
  have hword := ((hx.run hr).mem_iff.1 hm).1
  have hno := addsNoMore_of_close h hn hs hsilent
  cases hword.symm.trans (hno.lastWord hx hc hw hr ha)

theorem takesLeave_of_emptied {interval : Duration} {capacity : Nat}
    {isChanged : UnitStatus → UnitStatus → Bool}
    (hs : e₀.step (.poll interval capacity isChanged (.membersOf s)) = some e₁)
    (hmid : e₁.run mid = some y) (hlast : y.run last = some z)
    (hempty : ∀ seen x, seen <+: last → y.run seen = some x → x.registry.members s = []) :
    ∃ p, z.pollers.get? e₀.fresh = some p ∧
      let before := e₁.pollEvents e₀.fresh mid
      let after := y.pollEvents e₀.fresh last
      let messages := (Poller.start interval capacity isChanged (.membersOf s)).issued .values
        (before ++ after) p
      Snapshot.TakesLeave
          ((Scope.membersOf s).views (Poller.listings before) (Poller.memberships before))
          messages ∧
        (p.feed.listening .values = true →
          messages.length = (Poller.memberships (before ++ after)).length) := by
  obtain ⟨hstart, hlt⟩ := poller_of_poll hs
  obtain ⟨p₁, hp₁, hrun₁⟩ := poller_run hmid hstart hlt
  have hlt₁ := Nat.lt_of_lt_of_le hlt (fresh_le_of_run hmid)
  obtain ⟨p, hp, hrun⟩ := poller_run hlast hp₁ hlt₁
  have hscope : p₁.scope = .membersOf s := Poller.scope_of_run hrun₁
  refine ⟨p, hp, Poller.issued_takesLeave ?_ fun members hm => ?_⟩
  · rw [Poller.run_append, hrun₁]
    exact hrun
  · obtain ⟨seen, x, hseen, hx, rfl⟩ := mem_memberships hlast hp₁ hlt₁ hm
    rw [hscope]
    exact hempty seen x hseen hx

/-- A unit is in a set if and only if the last word on it is an addition that has succeeded; a
removal counts when it begins, whether the bus agrees or not, and the end of the set, for which
nobody has called as long as the set is open, counts as the removal of all units. In a step the
members are changed by nothing else than such an operation. Those who ask in between are told just
that, the list of all members in strictly increasing order. The end of a set takes its handle, which
an addition borrows, so that none is under way then. When the end has been told, the set is empty
for good; each of its pollers tells with its next message that the units are gone that it saw last,
and nothing with those that follow. -/
theorem run_keeps_members {capacity : Nat} {timer : Timer}
    (h : (start capacity timer).run events = some e) (s : SetId) :
    let calls := fun c => (start capacity timer).callOf c events
    (∀ unit, unit ∈ e.registry.members s ↔
      e.lastWord calls s unit = some true ∧ ¬e.Withdraws s unit) ∧
    (s ∈ e.sets → ∀ c, calls c ≠ some (.close s)) ∧
    (∀ event x unit, e.step event = some x →
      (unit ∈ x.registry.members s ↔ unit ∈ e.registry.members s) ∨
        ∃ c call op p, calls c = some call ∧ call.change? = some op ∧
          (op = .add s unit ∨ op = .remove s unit ∨ op = .detach s none true) ∧
          e.Intends (.caller c) op ∧ e.Turns event (.caller c) op p) ∧
    (∀ c x, calls c = some (.members s) → e.step (.grant (.caller c)) = some x →
      ∃ units, x.journal = .answered c (.members units) :: e.journal ∧ units.Pairwise (· < ·) ∧
        ∀ unit, unit ∈ units ↔ e.lastWord calls s unit = some true) ∧
    (∀ c name unit x, calls c = some (.contains s name) → Name.canonical name = .ok unit →
      e.step (.grant (.caller c)) = some x → x.journal =
        .answered c (.isMember (decide (e.lastWord calls s unit = some true))) :: e.journal) ∧
    ∀ x later y result, e.step (.call (.close s)) = some x →
      (∀ c name, calls c = some (.add s name) → e.callers.get? c = none) →
      x.run later = some y → .answered e.fresh (.done result) ∈ y.journal →
      ∀ last z, y.run last = some z → z.registry.members s = [] ∧
        ∀ (e₀ e₁ : Engine) (interval : Duration) (capacity' : Nat)
          (isChanged : UnitStatus → UnitStatus → Bool) (mid : List Event),
          e₀.step (.poll interval capacity' isChanged (.membersOf s)) = some e₁ →
          e₁.run mid = some e → ∃ p, z.pollers.get? e₀.fresh = some p ∧
            let before := e₁.pollEvents e₀.fresh (mid ++ .call (.close s) :: later)
            let after := y.pollEvents e₀.fresh last
            let messages := (Poller.start interval capacity' isChanged (.membersOf s)).issued
              .values (before ++ after) p
            Snapshot.TakesLeave
                ((Scope.membersOf s).views (Poller.listings before) (Poller.memberships before))
                messages ∧
              (p.feed.listening .values = true →
                messages.length = (Poller.memberships (before ++ after)).length) := by
  intro calls
  have hreach : e.Reachable := ⟨capacity, timer, events, h⟩
  have ht : e.Traced calls := .of_run h
  have hnumbers : (start capacity timer).Numbers := fun s hm => by cases hm
  refine ⟨fun unit => ht.mem_iff, fun hopen c hc => ?_, fun event x unit hs =>
    ht.members_of_step hs s unit, fun c x hc hs => ?_, fun c name unit x hc hname hs => ?_,
    fun x later y result hs hsilent hlater ha last z hlast => ?_⟩
  · exact (gone_of_callOf hnumbers h hc).2 hopen
  · obtain ⟨hh, hj⟩ := journal_of_grant_query hreach ht hc rfl hs
    refine ⟨_, hj, e.registry.pairwise_mergeSort_members s, fun unit => ?_⟩
    rw [List.mem_mergeSort, ht.mem_iff_of_free hh]
  · obtain ⟨hh, hj⟩ := journal_of_grant_query (q := .contains s unit) hreach ht hc
      (by rw [Call.wait?, Call.query?, hname]; rfl) hs
    rw [hj, respond]
    simp only [ht.mem_iff_of_free hh]
  · have hy := ((ht.step hs).run hlater)
    have hempty {last : List Event} {z : Engine} (hlast : y.run last = some z) :
        z.registry.members s = [] := by
      have hwhole : x.run (later ++ last) = some z := by
        rw [run_append, hlater]
        exact hlast
      have htold := (hy.journal_of_run hlast).subset ha
      exact members_of_closed ht (hnumbers.run h) hs hsilent hwhole htold
    refine ⟨hempty hlast, fun e₀ e₁ interval capacity' isChanged mid hpoll hmid => ?_⟩
    refine takesLeave_of_emptied hpoll ?_ hlast fun _ _ _ hx => hempty hx
    rw [run_append, hmid, Option.bind_some, run, hs]
    exact hlater

/-- Of three units one is removed again, though the bus fails, and one is never added, since the bus
fails. -/
def enrolled : List Event :=
  [.openSet, .call (.add 0 "a"), .grant (.caller 1), .matchReturned (.ok ()),
    .call (.add 0 "b"), .grant (.caller 2), .matchReturned (.ok ()),
    .call (.remove 0 "a"), .grant (.caller 3), .matchReturned (.error (.ioError "bus")),
    .call (.add 0 "c"), .grant (.caller 4), .matchReturned (.error (.ioError "bus"))]

def enrolledRows : Except Error (List UnitStatus) :=
  .ok [.ofStates "a.service" .loaded .active, .ofStates "b.service" .loaded .active]

/-- A poller looks at the set, and a caller asks for its members. -/
def inspected : List Event :=
  [.wakePoller 5, .listReturned (.poller 5) enrolledRows, .grant (.poller 5), .call (.members 0)]

/-- The poller lists twice more. -/
def relisted : List Event :=
  [.tick 10 10, .wakePoller 5, .listReturned (.poller 5) enrolledRows, .grant (.poller 5),
    .tick 10 10, .wakePoller 5, .listReturned (.poller 5) enrolledRows, .grant (.poller 5)]

theorem run_keeps_members_closed :
    ∃ e₀ e₁ e x₁ x y z p, (start 1 .exact).run enrolled = some e₀ ∧
      e₀.step (.poll ⟨10⟩ 4 UnitStatus.differs (.membersOf 0)) = some e₁ ∧
      e₁.run inspected = some e ∧ "b.service" ∈ e.registry.members 0 ∧
      "a.service" ∉ e.registry.members 0 ∧ "c.service" ∉ e.registry.members 0 ∧
      e.step (.grant (.caller 6)) = some x₁ ∧
      (∃ units, x₁.journal = .answered 6 (.members units) :: e.journal ∧
        units.Pairwise (· < ·) ∧ "b.service" ∈ units) ∧
      e.step (.call (.close 0)) = some x ∧
      x.run [.grant (.caller 7), .matchReturned (.ok ())] = some y ∧ y.run relisted = some z ∧
      z.registry.members 0 = [] ∧ z.pollers.get? 5 = some p ∧
      ∃ first second third, (Poller.start ⟨10⟩ 4 UnitStatus.differs (.membersOf 0)).issued .values
          (e₁.pollEvents 5 (inspected ++ [.call (.close 0), .grant (.caller 7),
            .matchReturned (.ok ())]) ++ y.pollEvents 5 relisted) p = [first, second, third] ∧
        second.get? "b.service" = some none ∧ third = .empty := by
  let e₀ := ((start 1 .exact).run enrolled).get (by decide +kernel)
  let e₁ := (e₀.step (.poll ⟨10⟩ 4 UnitStatus.differs (.membersOf 0))).get (by decide +kernel)
  let e := (e₁.run inspected).get (by decide +kernel)
  let x₁ := (e.step (.grant (.caller 6))).get (by decide +kernel)
  let x := (e.step (.call (.close 0))).get (by decide +kernel)
  let y := (x.run [.grant (.caller 7), .matchReturned (.ok ())]).get (by decide +kernel)
  let z := (y.run relisted).get (by decide +kernel)
  have h₀ : (start 1 .exact).run enrolled = some e₀ := (Option.some_get _).symm
  have hpoll : e₀.step (.poll ⟨10⟩ 4 UnitStatus.differs (.membersOf 0)) = some e₁ :=
    (Option.some_get _).symm
  have hmid : e₁.run inspected = some e := (Option.some_get _).symm
  have hs₁ : e.step (.grant (.caller 6)) = some x₁ := (Option.some_get _).symm
  have hs : e.step (.call (.close 0)) = some x := (Option.some_get _).symm
  have hlater : x.run [.grant (.caller 7), .matchReturned (.ok ())] = some y :=
    (Option.some_get _).symm
  have hlast : y.run relisted = some z := (Option.some_get _).symm
  let whole := enrolled ++ .poll ⟨10⟩ 4 UnitStatus.differs (.membersOf 0) :: inspected
  have hr : (start 1 .exact).run whole = some e := (run_append _ _ _).trans
    (Option.bind_eq_some_iff.2 ⟨e₀, h₀, Option.bind_eq_some_iff.2 ⟨e₁, hpoll, hmid⟩⟩)
  have hfresh : e₀.fresh = 5 := by decide +kernel
  have hfree : e.holder = none := Option.isNone_iff_eq_none.1 (by decide +kernel)
  have hb : e.lastWord (fun c => (start 1 .exact).callOf c whole) 0 "b.service" = some true := by
    decide +kernel
  have hac : e.lastWord (fun c => (start 1 .exact).callOf c whole) 0 "a.service" ≠ some true ∧
      e.lastWord (fun c => (start 1 .exact).callOf c whole) 0 "c.service" ≠ some true := by
    decide +kernel
  have hasks : (start 1 .exact).callOf 6 whole = some (.members 0) := by
    have hquery : ((start 1 .exact).callOf 6 whole).bind Call.query? = some (.members 0) := by
      decide +kernel
    obtain ⟨call, hcall, hq⟩ := Option.bind_eq_some_iff.1 hquery
    cases call with
    | members s =>
      cases hq
      exact hcall
    | contains s name | references name =>
      obtain ⟨unit, -, hunit⟩ := Option.map_eq_some_iff.1 hq
      cases hunit
    | _ => cases hq
  obtain ⟨hmem, -, -, hunits, -, hclosed⟩ := run_keeps_members hr 0
  obtain ⟨units, hj, hsorted, hall⟩ := hunits 6 x₁ hasks hs₁
  have hsilent : ∀ c name, (start 1 .exact).callOf c whole = some (.add 0 name) →
      e.callers.get? c = none := by
    have hkeys : e.callers.keys = [6] := by decide +kernel
    refine fun c name hadd => Option.eq_none_iff_forall_ne_some.2 fun w hw => ?_
    have hc : c ∈ e.callers.keys := Table.mem_keys_iff.2 ⟨w, hw⟩
    rw [hkeys] at hc
    cases List.mem_singleton.1 hc
    cases hasks.symm.trans hadd
  obtain ⟨result, htold⟩ : ∃ result, .answered e.fresh (.done result) ∈ y.journal := by
    have htold : y.journal.filterMap
        (Entry.report? fun c => if c = e.fresh then some (.close 0) else none) ≠ [] := by
      decide +kernel
    obtain ⟨⟨op, result⟩, hdeed⟩ := List.exists_mem_of_ne_nil _ htold
    obtain ⟨entry, hentry, hreport⟩ := List.mem_filterMap.1 hdeed
    obtain ⟨c, call, rfl, hc, -⟩ := Entry.report?_eq_some_iff.1 hreport
    obtain ⟨rfl, -⟩ := Option.ite_none_right_eq_some.1 hc
    exact ⟨result, hentry⟩
  obtain ⟨hnil, hleave⟩ := hclosed x _ y result hs hsilent hlater htold _ z hlast
  obtain ⟨p, hp, htakes, hcount⟩ := hleave e₀ e₁ ⟨10⟩ 4 _ inspected hpoll hmid
  rw [hfresh] at hp htakes hcount
  have hl : p.feed.listening .values = true := by
    have hl : (z.pollers.get? 5).map (fun p => p.feed.listening .values) = some true := by
      decide +kernel
    rw [hp] at hl
    exact Option.some.inj hl
  have hthree := (hcount hl).trans (by decide +kernel : _ = 3)
  obtain ⟨first, second, third, hmessages⟩ := List.length_eq_three.1 hthree
  have hseen : ((Scope.membersOf 0).views
      (Poller.listings (e₁.pollEvents 5 (inspected ++ [.call (.close 0), .grant (.caller 7),
        .matchReturned (.ok ())])))
      (Poller.memberships (e₁.pollEvents 5 (inspected ++ [.call (.close 0), .grant (.caller 7),
        .matchReturned (.ok ())])))) =
      [[.ofStates "b.service" .loaded .active]] := by
    decide +kernel
  rw [hmessages, hseen] at htakes
  refine ⟨e₀, e₁, e, x₁, x, y, z, p, h₀, hpoll, hmid, (hmem _).2 ⟨hb, not_withdraws hfree _ _⟩,
    fun hm => hac.1 ((hmem _).1 hm).1, fun hm => hac.2 ((hmem _).1 hm).1, hs₁,
    ⟨units, hj, hsorted, (hall _).2 hb⟩, hs, hlater, hlast, hnil, hp, first, second, third,
    hmessages, htakes.gone second rfl "b.service", htakes.silent 2 third (by simp) rfl⟩

end Engine

end UnitControl
