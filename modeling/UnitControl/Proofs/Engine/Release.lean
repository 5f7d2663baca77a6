import UnitControl.Proofs.Engine.Tenure
import UnitControl.Proofs.Registry.Release

/-!
# Removals, cancellations and closings in a running engine

Whatever an engine has been through: who removes a unit, cancels a subscription or closes a set goes
through with it although the bus fails, and is told of a failure if there was one.
-/

namespace UnitControl

/-- The task that lets references go on account of a call of the caller with this number, at once
or when the subscription is cancelled, and the operation with which it does so. -/
def Call.release? (id : CallerId) : Call → Option (Task × Registry.Operation)
  | remove s unit =>
    match Name.canonical unit with
    | .ok unit => some (.caller id, .remove s unit)
    | .error _ => none
  | close s => some (.caller id, .detach s none true)
  | attach s _ _ _ => some (.watcher id, .detach s (some id) false)
  | subscribe unit _ _ =>
    match Name.canonical unit with
    | .ok _ => some (.watcher id, .unsubscribe id)
    | .error _ => none
  | _ => none

namespace Engine

open Registry

variable {e y : Engine} {task : Task} {op : Operation} {call : Call}

theorem undertakes_of_step (hc : call.release? e.fresh = some (task, op))
    (hs : e.step (.call call) = some y) : y.Undertakes op task ∧ op.Releases := by
  refine of_step hs (fun x hr => ?_) fun _ => id
  cases hr with
  | call hp =>
    cases call with
    | remove s unit =>
      simp only [Call.release?] at hc
      split at hc
      · rename_i name hname
        cases hc
        refine ⟨?_, trivial⟩
        simp only [Engine.call, operateOn, hname]
        exact Table.get?_put_self _ _ _
      · cases hc
    | close s =>
      cases hc
      exact ⟨Table.get?_put_self _ _ _, trivial⟩
    | attach s values faults refusal =>
      cases hc
      exact ⟨⟨_, Table.get?_put_self _ _ _, rfl⟩, trivial⟩
    | subscribe unit values refusal =>
      simp only [Call.release?] at hc
      split at hc
      · rename_i name hname
        cases hc
        refine ⟨?_, trivial⟩
        simp only [Engine.call, hname]
        exact ⟨_, Table.get?_put_self _ _ _, rfl⟩
      · cases hc
    | _ => cases hc

/-- Whatever an engine has been through, in whatever order the members of a set are visited, and
whatever else happens meanwhile. Who removes a unit or closes a set does so in the registry when its
turn comes, and so does the task that ends a subscription. It comes to its end with the bus
answering in any way. The registry is then as if the bus had granted all calls, and the bus was
asked once to remove the rule of each unit that has lost its last reference, and nothing else. The
caller is told of a failure if and only if there was one. A set that is detached already keeps all
references as they are. -/
theorem Reachable.release_completes (h : e.Reachable) :
    (∀ call task op y later z, call.release? e.fresh = some (task, op) →
      e.step (.call call) = some y → y.run later = some z → task ∈ z.queue →
      op.Releases ∧ z.Undertakes op task) ∧
    ∀ r task op x, Reorders e.registry r → op.Releases → e.Intends task op →
      { e with registry := r }.step (.grant task) = some x →
      (∀ bus : MatchCall → Except Error Unit, ∃ log z,
        UntilFree x (log.map fun p => .matchReturned p.2) z ∧ z.matchLog = e.matchLog ++ log ∧
        ∀ p ∈ log, p.2 = bus p.1) ∧
      ∀ events z, UntilFree x events z → ∃ log result, z.matchLog = e.matchLog ++ log ∧
        Released r op log z.registry result ∧
        ∀ id, task = .caller id → e.Undertakes op task →
          .answered id (.done result) ∈ z.record := by
  refine ⟨fun call task op y later z hc hs hr hq => ?_, fun r task op x hreorder hop hi hs =>
    ⟨fun bus => ?_, fun events z hz => ?_⟩⟩
  · obtain ⟨hu, hop⟩ := undertakes_of_step hc hs
    exact ⟨hop, hu.of_run (h.step hs) hr hq⟩
  · obtain ⟨log, r', result, hc, hbus⟩ := exists_completes_release hop bus r
    obtain ⟨z, hz, hlog⟩ := untilFree_of_grant (e := { e with registry := r }) hi hs hc
    exact ⟨log, z, hz, hlog, hbus⟩
  · have hfree : e.holder = none := (book_of_grant (e := { e with registry := r }) hi hs).1
    have hstored : ∀ unit, r.counts.get? unit ≠ some 0 := by
      rw [hreorder.counts]
      exact (h.attained.accounts.free hfree).stored_ne_zero
    have ho : { e with registry := r }.Orderly :=
      h.attained.orderly.extend (l := []) (Nat.le_refl _) rfl rfl rfl (by simp)
    obtain ⟨log, result, hc, hlog, hanswer⟩ := concludes_of_grant ho hi hs hz
    refine ⟨log, result, hlog, released_of_completes hstored hop hc, fun id ht hu => ?_⟩
    subst ht
    exact hanswer id op rfl hu

/-- A set of two units, one of which is also in another set. -/
def disbanding : List Event :=
  [.openSet, .openSet, .call (.add 0 "a.service"), .grant (.caller 2), .matchReturned (.ok ()),
    .call (.add 0 "b.service"), .grant (.caller 3), .matchReturned (.ok ()),
    .call (.add 1 "b.service"), .grant (.caller 4)]

/-- The set is closed, and the bus fails to remove the rule of the unit that only this set has. -/
theorem Reachable.release_completes_shared :
    ∃ e y x z, (start 1 .exact).run disbanding = some e ∧ e.step (.call (.close 0)) = some y ∧
      y.Undertakes (.detach 0 none true) (.caller 5) ∧ y.step (.grant (.caller 5)) = some x ∧
      UntilFree x [.matchReturned (.error (.ioError "bus"))] z ∧
      z.matchLog = y.matchLog ++ [(.remove "a.service", .error (.ioError "bus"))] ∧
      z.registry.count "a.service" = 0 ∧ z.registry.count "b.service" = 1 ∧
      .answered 5 (.done (.error (.ioError "bus"))) ∈ z.record := by
  obtain ⟨e, he⟩ : ∃ e, (start 1 .exact).run disbanding = some e := ⟨_, rfl⟩
  have hreach : e.Reachable := ⟨1, .exact, disbanding, he⟩
  obtain ⟨y, hy, hq, hone⟩ : ∃ y, e.step (.call (.close 0)) = some y ∧ .caller 5 ∈ y.queue ∧
      y.registry.count "a.service" = 1 := by
    cases he
    exact ⟨_, rfl, by decide, rfl⟩
  have hfresh : e.fresh = 5 := by
    cases he
    rfl
  have hrelease : (Call.close 0).release? e.fresh = some (.caller 5, .detach 0 none true) := by
    rw [hfresh]
    rfl
  obtain ⟨hop, hu⟩ :=
    (Reachable.release_completes hreach).1 _ _ _ y [] y hrelease hy rfl hq
  obtain ⟨x, z, hx, hz, hlog, ha, hb⟩ : ∃ x z, y.step (.grant (.caller 5)) = some x ∧
      UntilFree x [.matchReturned (.error (.ioError "bus"))] z ∧
      z.matchLog = y.matchLog ++ [(.remove "a.service", .error (.ioError "bus"))] ∧
      z.registry.count "a.service" = 0 ∧ z.registry.count "b.service" = 1 := by
    cases he
    cases hy
    exact ⟨_, _, rfl, .wait (Option.isSome_iff_ne_none.1 rfl) rfl (.free rfl), rfl, rfl, rfl⟩
  have hreorders : Reorders y.registry y.registry :=
    ⟨fun _ => .refl _, fun _ => rfl, fun _ => rfl, rfl, rfl⟩
  obtain ⟨log, result, hlog', hreleased, hanswer⟩ :=
    ((Reachable.release_completes (hreach.step hy)).2 _ _ _ x hreorders hop hu.intends hx).2 _ z hz
  obtain rfl := List.append_cancel_left (hlog'.symm.trans hlog)
  obtain ⟨err, rfl⟩ := hreleased.fails_iff.2 ⟨_, _, List.mem_singleton_self _⟩
  obtain ⟨call, hcause⟩ := hreleased.cause err rfl
  cases List.mem_singleton.1 hcause
  exact ⟨e, y, x, z, he, hy, hu, hx, hz, hlog, ha, hb, hanswer 5 rfl hu⟩

end Engine

end UnitControl
