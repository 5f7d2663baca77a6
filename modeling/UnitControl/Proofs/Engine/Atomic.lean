import UnitControl.Proofs.Engine.Sinks
import UnitControl.Proofs.Registry.Atomic

/-!
# Failed calls in a running engine

Whatever an engine has been through, a call that adds a unit to a set, attaches a set again or
subscribes to a unit either succeeds or changes nothing.
-/

namespace UnitControl.Engine

open Registry

variable {e : Engine}

/-- Whatever the bus answers, and in whatever order the members of a set are visited: an operation
that takes references and fails does so with the error with which the bus has refused to add a rule.
Before that it has added the rules of some units, and after that it removes just these. All sets,
single subscriptions and counts are then what they were, no feed was closed, and the rules of the
bus are what they were if it has removed those that it was asked to remove. -/
theorem Reachable.acquire_leaves_no_trace (h : e.Reachable) (hn : e.holder = none)
    {r r' : Registry} (hr : Reorders e.registry r) {op : Operation} (ha : op.Acquires)
    {log : List (MatchCall × Except Error Unit)} {err : Error}
    (hc : Registry.Completes (r.begin op) log r' (.error err)) :
    (∃ (taken : List String) (unit : String) (undone : List (MatchCall × Except Error Unit)),
      log = (taken.map fun u => (.add u, .ok ())) ++ (.add unit, .error err) :: undone ∧
      undone.map Prod.fst = taken.map .remove) ∧
    (∀ s, r'.set s = r.set s) ∧ r'.directs = r.directs ∧
    (∀ unit, r'.count unit = r.count unit) ∧ r.closes op = none ∧
    ((∀ unit answer, (.remove unit, answer) ∈ log → answer = .ok ()) →
      ∀ rules, (afterCalls rules log).Perm rules) := by
  have hw : r.Wired := hr.wired h.attained.wires.wired
  have hs : ∀ unit, r.counts.get? unit ≠ some 0 := by
    rw [hr.counts]
    exact (h.attained.accounts.free hn).stored_ne_zero
  obtain ⟨taken, unit, undone, rfl, hu, hahead⟩ := acquire_atomic hw hs ha hc
  refine ⟨⟨taken, unit, undone, rfl, hu⟩, hahead.set_eq, hahead.directs_eq, hahead.count_eq,
    closes_of_acquire hw ha hc, fun hok rules => afterCalls_undone hu (fun p hp => ?_) rules⟩
  obtain ⟨u, -, hcall⟩ := List.mem_map.1 (hu ▸ List.mem_map_of_mem (f := Prod.fst) hp)
  refine hok u p.2 (List.mem_append_right _ (List.mem_cons_of_mem _ ?_))
  rw [hcall]
  exact hp

/-- A set of three units, one of which is also in another set, is detached. -/
def detached : List Event :=
  [.openSet, .openSet, .call (.add 0 "a.service"), .grant (.caller 2), .matchReturned (.ok ()),
    .call (.add 0 "b.service"), .grant (.caller 3), .matchReturned (.ok ()),
    .call (.add 0 "c.service"), .grant (.caller 4), .matchReturned (.ok ()),
    .call (.add 1 "b.service"), .grant (.caller 5),
    .call (.attach 0 1 1 none), .grant (.caller 6), .cancel 6, .grant (.watcher 6),
    .matchReturned (.ok ()), .matchReturned (.ok ())]

/-- What is left of it in the registry. -/
def halfway : Registry where
  sets := .ofList [(0, ⟨["a.service", "b.service", "c.service"], by decide, false, none⟩),
    (1, ⟨["b.service"], by decide, true, none⟩)]
  directs := .empty
  counts := .ofList [("b.service", 1)]

/-- The set is attached again. Of its members the one that is visited last is refused. -/
theorem Reachable.acquire_leaves_no_trace_reattach :
    ∃ e r r' log, (Engine.start 1 .exact).run detached = some e ∧ e.holder = none ∧
      Reorders e.registry r ∧
      (r.set 0).members = ["c.service", "b.service", "a.service"] ∧
      Registry.Completes (r.begin (.attach 0 7)) log r' (.error (.ioError "bus")) ∧
      log = [(.add "c.service", .ok ()), (.add "a.service", .error (.ioError "bus")),
        (.remove "c.service", .ok ())] ∧
      (∀ s, r'.set s = r.set s) ∧ (∀ unit, r'.count unit = r.count unit) ∧
      ∀ rules, (afterCalls rules log).Perm rules := by
  let e := ((Engine.start 1 .exact).run detached).get (by decide +kernel)
  have hr : (Engine.start 1 .exact).run detached = some e := (Option.some_get _).symm
  have hn : e.holder = none := Option.isNone_iff_eq_none.1 (by decide +kernel)
  have hreg : e.registry = halfway := by decide +kernel
  let r := halfway.putSet 0
    ⟨["c.service", "b.service", "a.service"], by decide, false, none⟩
  have hreorders : Reorders e.registry r := by
    rw [hreg]
    exact reorders_putSet (by decide) rfl rfl
  have hc : Registry.Completes (r.begin (.attach 0 7))
      [(.add "c.service", .ok ()), (.add "a.service", .error (.ioError "bus")),
        (.remove "c.service", .ok ())] _ (.error (.ioError "bus")) :=
    .ask (.ask (.ask .done))
  have ha : (Operation.attach 0 7).Acquires := trivial
  have h := Reachable.acquire_leaves_no_trace ⟨1, .exact, detached, hr⟩ hn hreorders ha hc
  refine ⟨e, r, _, _, hr, hn, hreorders, rfl, hc, rfl, h.2.1, h.2.2.2.1, h.2.2.2.2.2 ?_⟩
  intro unit answer hm
  simp only [List.mem_cons, Prod.mk.injEq, reduceCtorEq, false_and, false_or, List.not_mem_nil,
    or_false] at hm
  exact hm.2

end UnitControl.Engine
