import UnitControl.Proofs.Engine.Sinks
import UnitControl.Proofs.Engine.Tenure
import UnitControl.Proofs.Registry.Withdrawal

/-!
# Subscriptions that cannot be watched

Where no task can be started, the caller takes its subscription back itself. The registry is then as
it was before the call, but for a sink that was given to an attached set: that set is detached.
-/

namespace UnitControl.Engine

open Registry

variable {e e' x y : Engine} {id : CallerId} {op : Operation} {finish : Finish}

/-- A caller gets the registry, and the bus grants this many calls. -/
def turn (id : CallerId) (calls : Nat) : List Event :=
  .grant (.caller id) :: List.replicate calls (.matchReturned (.ok ()))

/-- A caller makes its call and goes through with it in two turns, by itself and with the bus
granting everything, where the registry has its members in this order. -/
def CallsAlone (e : Engine) (call : Call) (r : Registry) (e' : Engine) : Prop :=
  ∃ x n m y, e.step (.call call) = some x ∧
    { x with registry := r }.run (turn e.fresh n) = some y ∧ y.holder = none ∧
    y.run (turn e.fresh m) = some e' ∧ e'.holder = none

/-- The bus grants what an operation asks for that has come to `p`, until it lets the registry
go. -/
theorem completes_of_replicate {p : Registry × Progress} (hh : x.holder = none)
    (hx : Alike (x.book (.caller id) p) y) {n : Nat}
    (hr : y.run (List.replicate n (.matchReturned (.ok ()))) = some e') (hn : e'.holder = none) :
    ∃ (log : MatchLog) (result : Except Error Unit) (w : Engine),
      Registry.Completes p log e'.registry result ∧ (∀ q ∈ log, q.2 = .ok ()) ∧
      w.matchLog = x.matchLog ++ log ∧ w.callers = x.callers ∧
      Alike ({ w with registry := e'.registry }.settle (.caller id) result) e' := by
  induction n generalizing x y p with
  | zero =>
    cases hr
    obtain ⟨r, progress⟩ := p
    cases progress with
    | ask call pause =>
      have hholder := hx.holder
      rw [hn] at hholder
      cases hholder
    | done result =>
      have hreg : e'.registry = r := hx.registry.trans (registry_settle _ _ _)
      refine ⟨[], result, x, hreg ▸ .done, by simp, (List.append_nil _).symm, rfl, ?_⟩
      rw [hreg]
      exact hx
  | succ n ih =>
    obtain ⟨y₁, hs, hr⟩ := Option.bind_eq_some_iff.1 hr
    obtain ⟨y₂, hreaction, hrouse⟩ := reaction_alike_of_step hs
    obtain ⟨r, progress⟩ := p
    cases hreaction with
    | @matchReturned holder _ hholder =>
      cases progress with
      | done result =>
        have hfree : y.holder = none := hx.holder.trans ((holder_settle _ _ _).trans hh)
        rw [hholder] at hfree
        cases hfree
      | ask call pause =>
        cases hholder.symm.trans hx.holder
        have hreg : y.registry = r := hx.registry
        let x₁ := { y with holder := none }.note (.matchReturned call (.ok ()))
        obtain ⟨log, result, w, hc, hok, hlog, hcallers, halike⟩ :=
          ih (x := x₁) rfl ((alike_proceed (e := x₁) _ _).trans hrouse) hr
        refine ⟨(call, .ok ()) :: log, result, w, .ask (hreg ▸ hc), ?_, ?_, ?_, halike⟩
        · rintro q (- | ⟨-, hq⟩)
          · rfl
          · exact hok q hq
        · have hy : y.matchLog = x.matchLog := (matchLog_alike hx).trans (matchLog_book _ _ _)
          rw [hlog, matchLog_note_returned, ← hy, List.append_assoc]
          rfl
        · exact hcallers.trans hx.callers

theorem completes_of_turn (hw : x.callers.get? id = some (.operation op finish)) {n : Nat}
    (hr : x.run (turn id n) = some y) (hn : y.holder = none) :
    ∃ (log : MatchLog) (w : Engine),
      Registry.Completes (x.registry.begin op) log y.registry (.ok ()) ∧
      (∀ q ∈ log, q.2 = .ok ()) ∧ y.matchLog = x.matchLog ++ log ∧ w.callers = x.callers ∧
      Alike ({ w with registry := y.registry }.settle (.caller id) (.ok ())) y := by
  obtain ⟨y₁, hs, hr⟩ := Option.bind_eq_some_iff.1 hr
  have hi : x.Intends (.caller id) op := ⟨finish, hw⟩
  obtain ⟨hh, x₀, hx₀, hbook⟩ := book_of_grant hi hs
  obtain ⟨log, result, w, hc, hok, hlog, hcallers, halike⟩ :=
    completes_of_replicate (hx₀.holder.trans hh) hbook hr hn
  obtain rfl : result = .ok () := ok_of_granted (succeeds_begin _ _) hc hok
  refine ⟨log, w, hc, hok, ?_, hcallers.trans hx₀.callers, halike⟩
  have hend := matchLog_book w (.caller id) (y.registry, .done (.ok ()))
  rw [← matchLog_alike hx₀, ← hlog, ← hend]
  exact matchLog_alike halike

/-- A caller that is to take its operation back does so in its second turn, and gets the cause. -/
theorem takesBack_of_turns {next : Operation} (hw : x.callers.get? id =
      some (.operation op (.undo next cause))) {n m : Nat} (hx : x.run (turn id n) = some y)
    (hy : y.holder = none) (hr : y.run (turn id m) = some e') (hn : e'.holder = none) :
    ∃ log, TakesBack x.registry op next log e'.registry ∧ e'.matchLog = x.matchLog ++ log ∧
      Entry.answered id (.done (.error (.noRuntime "unitlink-cancel" cause))) ∈ e'.record := by
  obtain ⟨log₁, w₁, hc₁, hok₁, hlog₁, hcallers₁, ha₁⟩ := completes_of_turn hw hx hy
  have hsettle₁ : { w₁ with registry := y.registry }.settle (.caller id) (.ok ()) =
      { w₁ with registry := y.registry }.await id
        (.operation next (.fail (.noRuntime "unitlink-cancel" cause))) := by
    simp only [settle, hcallers₁, hw]
  rw [hsettle₁] at ha₁
  have hwait : y.callers.get? id =
      some (.operation next (.fail (.noRuntime "unitlink-cancel" cause))) := by
    rw [ha₁.callers]
    exact Table.get?_put_self _ _ _
  obtain ⟨log₂, w₂, hc₂, hok₂, hlog₂, hcallers₂, ha₂⟩ := completes_of_turn hwait hr hn
  have hsettle₂ : { w₂ with registry := e'.registry }.settle (.caller id) (.ok ()) =
      { w₂ with registry := e'.registry }.answer id
        (.done (.error (.noRuntime "unitlink-cancel" cause))) := by
    simp only [settle, hcallers₂, hwait]
  refine ⟨log₁ ++ log₂, ⟨log₁, _, log₂, hc₁, hc₂, rfl, ?_⟩, ?_, ?_⟩
  · exact fun p hm => (List.mem_append.1 hm).elim (hok₁ p) (hok₂ p)
  · rw [hlog₂, hlog₁, List.append_assoc]
  · rw [ha₂.record, hsettle₂, record_answer_of_waits (hcallers₂ ▸ hwait)]
    exact List.mem_cons_self

theorem undo_of_step_attach {s : SetId} {values faults : Nat}
    (h : e.step (.call (.attach s values faults (some cause))) = some e') :
    e'.registry = e.registry ∧ e'.matchLog = e.matchLog ∧ e'.callers.get? e.fresh =
      some (.operation (.attach s e.fresh) (.undo (.detach s (some e.fresh) false) cause)) := by
  obtain ⟨x, hr, hx⟩ := reaction_of_step h
  cases hr with
  | call hp =>
    obtain rfl | rfl := hx <;> exact ⟨rfl, rfl, Table.get?_put_self _ _ _⟩

theorem undo_of_step_subscribe {unit name : String} {values : Nat}
    (hu : Name.canonical unit = .ok name)
    (h : e.step (.call (.subscribe unit values (some cause))) = some e') :
    e'.registry = e.registry ∧ e'.matchLog = e.matchLog ∧ e'.callers.get? e.fresh =
      some (.operation (.subscribe e.fresh name) (.undo (.unsubscribe e.fresh) cause)) := by
  obtain ⟨x, hr, hx⟩ := reaction_of_step h
  cases hr with
  | call hp =>
    simp only [call, hu] at hx
    obtain rfl | rfl := hx <;> exact ⟨rfl, rfl, Table.get?_put_self _ _ _⟩

/-- Whatever an engine has been through, and in whatever order the members of a set are visited: a
subscription for which no task can be started fails for that reason if the bus grants all its calls,
and is taken back. One to a single unit leaves no trace, and neither does a sink for a set that was
detached. But a set that was attached, with a sink or without, is detached: it loses the references
of all its members, and the bus the rules of those that nobody else holds. -/
theorem Reachable.takes_back (h : e.Reachable) (hn : e.holder = none) {r : Registry}
    (hr : Reorders e.registry r) :
    (∀ unit name values cause, Name.canonical unit = .ok name →
      e.CallsAlone (.subscribe unit values (some cause)) r e' →
      ∃ log, e'.matchLog = e.matchLog ++ log ∧ (∀ p ∈ log, p.2 = .ok ()) ∧
        Entry.answered e.fresh (.done (.error (.noRuntime "unitlink-cancel" cause))) ∈ e'.record ∧
        Untouched r e'.registry log) ∧
    ∀ s values faults cause, e.CallsAlone (.attach s values faults (some cause)) r e' →
      ∃ log, e'.matchLog = e.matchLog ++ log ∧ (∀ p ∈ log, p.2 = .ok ()) ∧
        Entry.answered e.fresh (.done (.error (.noRuntime "unitlink-cancel" cause))) ∈ e'.record ∧
        ((r.set s).attached = false → Untouched r e'.registry log) ∧
        ((r.set s).attached = true → LeavesDetached s r e'.registry log) := by
  have hw : r.Wired := hr.wired h.attained.wires.wired
  have hs : ∀ unit, r.counts.get? unit ≠ some 0 := by
    rw [hr.counts]
    exact (h.attained.accounts.free hn).stored_ne_zero
  refine ⟨fun unit name values cause hu hc => ?_, fun s values faults cause hc => ?_⟩
  · obtain ⟨x, n, m, y, hcall, hy, hyn, he, hen⟩ := hc
    obtain ⟨hreg, hlog, hwait⟩ := undo_of_step_subscribe hu hcall
    have hnew : r.directs.get? e.fresh = none := by
      rw [hr.directs, ← hreg]
      exact (h.step hcall).attained.accounts.news _ _ _ hwait
    obtain ⟨log, hback, hlog', hanswer⟩ :=
      takesBack_of_turns (x := { x with registry := r }) hwait hy hyn he hen
    obtain ⟨-, -, -, -, -, -, hok⟩ := id hback
    exact ⟨log, hlog'.trans (congrArg (· ++ log) hlog), hok, hanswer,
      hback.untouched_subscribe hs hnew⟩
  · obtain ⟨x, n, m, y, hcall, hy, hyn, he, hen⟩ := hc
    obtain ⟨hreg, hlog, hwait⟩ := undo_of_step_attach hcall
    obtain ⟨log, hback, hlog', hanswer⟩ :=
      takesBack_of_turns (x := { x with registry := r }) hwait hy hyn he hen
    obtain ⟨-, -, -, -, -, -, hok⟩ := id hback
    exact ⟨log, hlog'.trans (congrArg (· ++ log) hlog), hok, hanswer,
      hback.untouched_attach hw hs, hback.leavesDetached_attach hs⟩

/-- An attached set of two units, one of which is also in another set. -/
def overlapping : List Event :=
  [.openSet, .openSet, .call (.add 0 "a.service"), .grant (.caller 2), .matchReturned (.ok ()),
    .call (.add 0 "b.service"), .grant (.caller 3), .matchReturned (.ok ()),
    .call (.add 1 "b.service"), .grant (.caller 4)]

/-- A sink that cannot be watched detaches the set; a subscription to a third unit leaves
everything as it was. -/
theorem Reachable.takes_back_overlapping :
    ∃ e z z', (start 1 .exact).run overlapping = some e ∧ (e.registry.set 0).attached = true ∧
      e.registry.count "a.service" = 1 ∧ e.registry.count "b.service" = 2 ∧
      e.CallsAlone (.attach 0 1 1 (some "no reactor")) e.registry z ∧
      (z.registry.set 0).attached = false ∧
      z.registry.count "a.service" = 0 ∧ z.registry.count "b.service" = 1 ∧
      (∃ log, z.matchLog = e.matchLog ++ log ∧
        log.map Prod.fst = [.remove "a.service"]) ∧
      e.CallsAlone (.subscribe "c.service" 1 (some "no reactor")) e.registry z' ∧
      ∀ unit, z'.registry.count unit = e.registry.count unit := by
  obtain ⟨e, hr⟩ : ∃ e, (start 1 .exact).run overlapping = some e := ⟨_, rfl⟩
  have hstate : e.holder = none ∧ (e.registry.set 0).attached = true ∧
      (e.registry.set 0).members = ["a.service", "b.service"] ∧
      e.registry.count "a.service" = 1 ∧ e.registry.count "b.service" = 2 := by
    cases hr
    exact ⟨rfl, rfl, rfl, rfl, rfl⟩
  obtain ⟨hn, hatt, hmembers, ha, hb⟩ := hstate
  obtain ⟨z, hz⟩ : ∃ z, e.CallsAlone (.attach 0 1 1 (some "no reactor")) e.registry z := by
    cases hr
    exact ⟨_, _, 0, 1, _, rfl, rfl, rfl, rfl, rfl⟩
  obtain ⟨z', hz'⟩ :
      ∃ z', e.CallsAlone (.subscribe "c.service" 1 (some "no reactor")) e.registry z' := by
    cases hr
    exact ⟨_, _, 1, 1, _, rfl, rfl, rfl, rfl, rfl⟩
  have hreorders : Reorders e.registry e.registry :=
    ⟨fun _ => .refl _, fun _ => rfl, fun _ => rfl, rfl, rfl⟩
  have hreach : e.Reachable := ⟨1, .exact, overlapping, hr⟩
  obtain ⟨log, hlog, -, -, -, hleaves⟩ := (Reachable.takes_back hreach hn hreorders).2 0 1 1 _ hz
  obtain ⟨_, -, -, -, huntouched⟩ :=
    (Reachable.takes_back hreach hn hreorders).1 "c.service" "c.service" 1 _ rfl hz'
  have hleft := hleaves hatt
  refine ⟨e, z, z', hr, hatt, ha, hb, hz, ?_, ?_, ?_, ⟨log, hlog, ?_⟩, hz', huntouched.counts⟩
  · rw [hleft.set_eq]
    rfl
  · rw [hleft.counts, hmembers, ha]
    rfl
  · rw [hleft.counts, hmembers, hb]
    rfl
  · rw [hleft.calls, hmembers]
    simp [ha, hb]

end UnitControl.Engine
