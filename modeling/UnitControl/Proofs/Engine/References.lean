import UnitControl.Proofs.Engine.Waits
import UnitControl.Proofs.Registry.Directs

/-!
# References in a running engine

While no operation is in progress the registry of an engine is balanced. An operation in progress
keeps the account of what is out of balance, so that it never lets go of a reference that was not
counted.
-/

namespace UnitControl.Engine

/-- Feeds on which no single subscription is made yet: those of new callers, and those of callers
that are still to subscribe. -/
structure Admitting (e : Engine) : Prop where
  directs_lt : ∀ feed unit, e.registry.directs.get? feed = some unit → feed < e.fresh
  news : ∀ id op finish, e.callers.get? id = some (.operation op finish) → op.IsNew e.registry
  endings : e.EndingsRelease

structure Accounts (e : Engine) : Prop extends Admitting e where
  free : e.holder = none → e.registry.Balanced []
  held : ∀ h, e.holder = some h →
    e.registry.Balanced h.pause.spare ∧ h.pause.Awaits e.registry h.call
  /-- Only the caller of that number subscribes on a feed. -/
  newcomer : ∀ h feed, e.holder = some h → h.pause.newcomer? = some feed →
    h.task = .caller feed ∧ feed < e.fresh

variable {e e' : Engine}

theorem isNew_of_newcomer {r : Registry} {op : Registry.Operation}
    (h : ∀ feed, op.newcomer? = some feed → r.directs.get? feed = none) : op.IsNew r := by
  cases op with
  | subscribe feed unit => exact h feed rfl
  | add s unit => trivial
  | remove s unit => trivial
  | attach s feed => trivial
  | detach s only forget => trivial
  | unsubscribe feed => trivial

namespace Admitting

theorem extend (h : e.Admitting) (hf : e.fresh ≤ e'.fresh) (hr : e'.registry = e.registry)
    (ho : e.EndingsRelease → e'.EndingsRelease)
    (hc : ∀ id op finish, e'.callers.get? id = some (.operation op finish) →
      e.callers.get? id = some (.operation op finish)) : e'.Admitting := by
  refine ⟨?_, ?_, ho h.endings⟩
  · intro feed unit hd
    exact Nat.lt_of_lt_of_le (h.directs_lt feed unit (hr ▸ hd)) hf
  · intro id op finish hw
    rw [hr]
    exact h.news id op finish (hc id op finish hw)

theorem enrol (h : e.Admitting) {w : Wait} (hw : w.Suits e.fresh) :
    ({ e with fresh := e.fresh + 1 }.await e.fresh w).Admitting := by
  refine ⟨?_, ?_, h.endings⟩
  · intro feed unit hd
    exact Nat.lt_succ_of_lt (h.directs_lt feed unit hd)
  · intro id op finish hid
    have hid : (e.callers.put e.fresh w).get? id = some (.operation op finish) := hid
    rw [Table.get?_put] at hid
    split at hid
    · cases hid
      apply isNew_of_newcomer
      intro feed hfeed
      have hfresh : feed = e.fresh := hw.1 feed hfeed
      cases hd : e.registry.directs.get? feed with
      | none => exact hd
      | some unit => exact absurd hfresh (Nat.ne_of_lt (h.directs_lt feed unit hd))
    · exact h.news id op finish hid

theorem settle (ho : e.Orderly) (h : e.Admitting) {task : Task} {r : Registry}
    {newcomer? : Option FeedId} {result : Except Error Unit}
    (ha : Registry.Admits e.registry newcomer? (r, .done result))
    (ht : ∀ feed, newcomer? = some feed → task = .caller feed ∧ feed < e.fresh) :
    ({ e with registry := r }.settle task result).Admitting := by
  have hlt : ∀ feed unit, r.directs.get? feed = some unit → feed < e.fresh := by
    intro feed unit hd
    rcases ha.directs feed unit hd with hd | ⟨hn, -⟩
    · exact h.directs_lt feed unit hd
    · exact (ht feed hn).2
  have hnew : ∀ id op finish, task ≠ .caller id →
      e.callers.get? id = some (.operation op finish) → op.IsNew r := by
    intro id op finish hne hw
    have hsuits := (ho.waits id _ hw).2.1
    have hn := h.news id op finish hw
    cases op with
    | subscribe feed unit =>
      have hid : feed = id := hsuits feed rfl
      change r.directs.get? feed = none
      cases hd : r.directs.get? feed with
      | none => rfl
      | some v =>
        rcases ha.directs feed v hd with hd | ⟨hfeed, -⟩
        · have hn : e.registry.directs.get? feed = none := hn
          rw [hn] at hd
          cases hd
        · exact absurd (hid ▸ (ht feed hfeed).1) hne
    | _ => trivial
  refine ⟨?_, fun id op finish hw => ?_, ?_⟩
  · rw [registry_settle, fresh_settle]
    exact hlt
  · rw [registry_settle]
    obtain ⟨hne, hw⟩ | hnone := ho.operation_of_settle hw
    · exact hnew id op finish hne hw
    · exact isNew_of_newcomer fun feed hfeed => absurd (hnone ▸ hfeed) (by simp)
  · simp only [EndingsRelease, outlets_settle]
    exact h.endings

end Admitting

namespace Accounts

theorem start (capacity : Nat) (timer : Timer) : (Engine.start capacity timer).Accounts where
  directs_lt feed unit h := by simp [Engine.start, Registry.empty] at h
  news id op finish h := by simp [Engine.start] at h
  endings feed o h := by simp [Engine.start] at h
  free _ := Registry.balanced_empty
  held h hh := by simp [Engine.start] at hh
  newcomer h feed hh := by simp [Engine.start] at hh

theorem extend (h : e.Accounts) (hf : e.fresh ≤ e'.fresh) (hr : e'.registry = e.registry)
    (hh : e'.holder = e.holder) (ho : e.EndingsRelease → e'.EndingsRelease)
    (hc : ∀ id op finish, e'.callers.get? id = some (.operation op finish) →
      e.callers.get? id = some (.operation op finish)) : e'.Accounts where
  toAdmitting := h.toAdmitting.extend hf hr ho hc
  free hn := hr ▸ h.free (hh ▸ hn)
  held holder hs := hr ▸ h.held holder (hh ▸ hs)
  newcomer holder feed hs hn := by
    obtain ⟨ht, hlt⟩ := h.newcomer holder feed (hh ▸ hs) hn
    exact ⟨ht, Nat.lt_of_lt_of_le hlt hf⟩

theorem alike (ha : Alike e e') (h : e.Accounts) : e'.Accounts :=
  h.extend (Nat.le_of_eq ha.fresh.symm) ha.registry ha.holder ha.endings fun _ _ _ hw =>
    ha.callers ▸ hw

theorem spare (h : e.Accounts) (hs : Spares e e') : e'.Accounts :=
  h.extend hs.fresh hs.registry hs.holder hs.endings hs.operations

/-- An operation that was free to go on is over, or waits for the bus with its account kept. -/
theorem book (ho : e.Orderly) (h : e.Admitting) (hh : e.holder = none) {task : Task}
    {p : Registry × Registry.Progress} {newcomer? : Option FeedId} (hp : p.2.Sound p.1)
    (ha : Registry.Admits e.registry newcomer? p)
    (ht : ∀ feed, newcomer? = some feed → task = .caller feed ∧ feed < e.fresh) :
    (e.book task p).Accounts := by
  obtain ⟨r, progress⟩ := p
  cases progress with
  | done result =>
    have hs : ({ e with registry := r }.settle task result).holder = none := by simp [hh]
    rw [book_done]
    refine ⟨h.settle ho ha ht, ?_, ?_, ?_⟩
    · intro _
      rw [registry_settle]
      exact hp
    · intro holder hholder
      rw [hs] at hholder
      cases hholder
    · intro holder feed hholder
      rw [hs] at hholder
      cases hholder
  | ask call pause =>
    have hd : ∀ feed unit, r.directs.get? feed = some unit →
        e.registry.directs.get? feed = some unit := by
      intro feed unit hf
      refine (ha.directs feed unit hf).resolve_right ?_
      rintro ⟨-, result, hr⟩
      cases hr
    refine ⟨⟨?_, ?_, h.endings⟩, ?_, ?_, ?_⟩
    · intro feed unit hf
      exact h.directs_lt feed unit (hd feed unit hf)
    · intro id op finish hw
      have hn := h.news id op finish hw
      cases op with
      | subscribe feed unit =>
        change r.directs.get? feed = none
        cases hf : r.directs.get? feed with
        | none => rfl
        | some v =>
          have hn : e.registry.directs.get? feed = none := hn
          have hs := hd feed v hf
          rw [hn] at hs
          cases hs
      | _ => trivial
    · intro hn
      cases hn
    · intro holder hholder
      cases hholder
      exact hp
    · intro holder feed hholder hn
      cases hholder
      cases pause with
      | subscribing f unit =>
        cases hn
        exact ht feed (ha.waits call feed unit rfl)
      | joining s unit => cases hn
      | reattaching s f held unit rest => cases hn
      | releasing failure rest => cases hn

theorem operate (ho : e.Orderly) (h : e.Accounts) {task : Task} {op : Registry.Operation}
    (hh : e.holder = none) (hi : e.Intends task op) :
    (e.book task (e.registry.begin op)).Accounts := by
  have hnew : op.IsNew e.registry ∧
      ∀ feed, op.newcomer? = some feed → task = .caller feed ∧ feed < e.fresh := by
    cases task with
    | caller id =>
      obtain ⟨finish, hw⟩ := hi
      obtain ⟨hlt, hsuits, -⟩ := ho.waits id _ hw
      refine ⟨h.news id op finish hw, fun feed hfeed => ?_⟩
      have hid : feed = id := hsuits feed hfeed
      exact ⟨hid ▸ rfl, hid ▸ hlt⟩
    | watcher feed =>
      obtain ⟨o, ho, rfl⟩ := hi
      have hn : o.ending.newcomer? = none := h.endings feed o ho
      exact ⟨isNew_of_newcomer fun f hf => absurd (hn ▸ hf) (by simp), by simp [hn]⟩
    | dispatcher => exact hi.elim
    | poller id => exact hi.elim
  exact book ho h.toAdmitting hh (Registry.sound_begin (h.free hh) hnew.1)
    (Registry.admits_begin e.registry op) hnew.2

theorem resume (ho : e.Orderly) (h : e.Accounts) {holder : Holder} (answer : Except Error Unit)
    (hh : e.holder = some holder) :
    (({ e with holder := none }.note (.matchReturned holder.call answer)).book holder.task
      (e.registry.resume answer holder.pause)).Accounts := by
  obtain ⟨hb, hw⟩ := h.held holder hh
  have ha : ({ e with holder := none }.note (.matchReturned holder.call answer)).Admitting :=
    h.toAdmitting.extend (Nat.le_refl _) rfl id fun _ _ _ hw => hw
  exact book (ho.matchReturned _ answer) ha rfl (Registry.sound_resume answer hb hw)
    (Registry.admits_resume e.registry answer holder.pause) fun feed hf =>
      h.newcomer holder feed hh hf

theorem enrol (h : e.Accounts) {w : Wait} (hw : w.Suits e.fresh) :
    ({ e with fresh := e.fresh + 1 }.await e.fresh w).Accounts := by
  refine ⟨h.toAdmitting.enrol hw, h.free, h.held, fun holder feed hh hn => ?_⟩
  obtain ⟨ht, hlt⟩ := h.newcomer holder feed hh hn
  exact ⟨ht, Nat.lt_succ_of_lt hlt⟩

theorem move (ho : e.Orderly) (h : e.Accounts) (hm : Move e e') : e'.Accounts := by
  obtain hs | ⟨w, hw, rfl⟩ | ⟨task, op, hh, hi, rfl⟩ | ⟨holder, answer, hh, rfl⟩ := hm.cases
  · exact h.spare hs
  · exact h.enrol hw
  · exact operate ho h hh hi
  · exact resume ho h answer hh

end Accounts

theorem Attained.accounts (h : e.Attained) : e.Accounts := by
  induction h with
  | start capacity timer => exact .start capacity timer
  | alike _ ha ih => exact ih.alike ha
  | move h hm ih => exact ih.move h.orderly hm

/-- Whatever the operations were and whatever the bus has answered: between two operations the count
of a unit is the number of attached sets that it is in and of its single subscriptions, and no zero
is stored. Whichever operation begins then, or goes on later, lets go of counted references only. -/
theorem Reachable.references_counted (h : e.Reachable) :
    (e.holder = none →
      (∀ unit, e.registry.count unit = e.registry.holders unit ∧
        e.registry.counts.get? unit ≠ some 0) ∧
      ∀ op, (e.registry.dues op).1.Covered (e.registry.dues op).2 ∧
        ((e.registry.dues op).2 ≠ [] → e.registry.begin op =
          (e.registry.dues op).1.releaseAll none (e.registry.dues op).2)) ∧
    ∀ holder, e.holder = some holder → ∀ answer,
      e.registry.Covered (holder.pause.dues answer) ∧
        (holder.pause.dues answer ≠ [] → ∃ failure, e.registry.resume answer holder.pause =
          e.registry.releaseAll failure (holder.pause.dues answer)) := by
  have ha := h.attained.accounts
  constructor
  · intro hn
    have hb := ha.free hn
    refine ⟨fun unit => ⟨?_, hb.stored_ne_zero unit⟩, fun op => ⟨?_, ?_⟩⟩
    · have hc := hb.count_eq unit
      rwa [List.count_nil, Nat.add_zero] at hc
    · exact (Registry.balanced_dues hb op).covered
    · exact Registry.begin_eq_releaseAll
  · intro holder hh answer
    exact ⟨(ha.held holder hh).1.covered_dues answer, Registry.resume_eq_releaseAll⟩

/-- Two sets and a subscription share a unit. -/
def sharing : List Event :=
  [.openSet, .openSet, .call (.add 0 "a.service"), .grant (.caller 2), .matchReturned (.ok ()),
    .call (.add 1 "b.service"), .grant (.caller 3), .matchReturned (.ok ()),
    .call (.add 1 "a.service"), .grant (.caller 4),
    .call (.subscribe "a.service" 1 none), .grant (.caller 5)]

/-- When one of the sets is closed, the engine waits for the bus with one of three references still
to be let go. -/
theorem Reachable.references_counted_sharing :
    (∃ e, (Engine.start 1 .exact).run sharing = some e ∧ e.holder = none ∧
      e.registry.count "a.service" = 3 ∧
      e.registry.count "a.service" = e.registry.holders "a.service") ∧
    ∃ e holder,
      (Engine.start 1 .exact).run (sharing ++ [.call (.close 1), .grant (.caller 6)]) = some e ∧
      e.holder = some holder ∧ holder.pause.dues (.ok ()) = ["a.service"] ∧
      e.registry.Covered ["a.service"] := by
  constructor
  · have hr : (Engine.start 1 .exact).run sharing = some _ := rfl
    have h := (Reachable.references_counted ⟨1, .exact, sharing, hr⟩).1 rfl
    exact ⟨_, hr, rfl, rfl, (h.1 "a.service").1⟩
  · have hr : (Engine.start 1 .exact).run (sharing ++ [.call (.close 1), .grant (.caller 6)]) =
        some _ := rfl
    have h := (Reachable.references_counted ⟨1, .exact, _, hr⟩).2 _ rfl (.ok ())
    exact ⟨_, _, hr, rfl, rfl, h.1⟩

end UnitControl.Engine
