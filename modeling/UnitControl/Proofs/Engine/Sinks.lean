import UnitControl.Proofs.Engine.References
import UnitControl.Proofs.Registry.Sinks

/-!
# One place for each feed

In a running engine every feed has one place in the registry at most. A feed that is still to get
its place has none, and only the call with its number gives it one.
-/

namespace UnitControl.Engine

/-- The feeds that have a place, and those that callers want to place. -/
structure Wiring (e : Engine) : Prop where
  wired : e.registry.Wired
  serves_lt : ∀ feed, e.registry.Serves feed → feed < e.fresh
  news : ∀ id op finish feed, e.callers.get? id = some (.operation op finish) →
    op.newcomer? = some feed → ¬e.registry.Serves feed

structure Wires (e : Engine) : Prop extends Wiring e where
  newcomer : ∀ h feed, e.holder = some h → h.pause.feed? = some feed →
    h.task = .caller feed ∧ feed < e.fresh ∧ ¬e.registry.Serves feed

variable {e e' : Engine}

theorem not_serves_empty (feed : FeedId) : ¬Registry.empty.Serves feed := by
  rintro (⟨s, hs⟩ | ⟨unit, hd⟩)
  · cases hs
  · cases hd

namespace Wiring

theorem extend (h : e.Wiring) (hf : e.fresh ≤ e'.fresh) (hr : e'.registry = e.registry)
    (hc : ∀ id op finish, e'.callers.get? id = some (.operation op finish) →
      e.callers.get? id = some (.operation op finish)) : e'.Wiring := by
  refine ⟨hr ▸ h.wired, fun feed hs => ?_, fun id op finish feed hw hn => ?_⟩
  · exact Nat.lt_of_lt_of_le (h.serves_lt feed (hr ▸ hs)) hf
  · rw [hr]
    exact h.news id op finish feed (hc id op finish hw) hn

theorem enrol (h : e.Wiring) {w : Wait} (hw : w.Suits e.fresh) :
    ({ e with fresh := e.fresh + 1 }.await e.fresh w).Wiring := by
  refine ⟨h.wired, fun feed hs => Nat.lt_succ_of_lt (h.serves_lt feed hs), ?_⟩
  intro id op finish feed hid hn
  have hid : (e.callers.put e.fresh w).get? id = some (.operation op finish) := hid
  rw [Table.get?_put] at hid
  split at hid
  · cases hid
    have hfresh : feed = e.fresh := hw.1 feed hn
    exact fun hs => absurd hfresh (Nat.ne_of_lt (h.serves_lt feed hs))
  · exact h.news id op finish feed hid hn

theorem settle (ho : e.Orderly) (h : e.Wiring) {task : Task} {r : Registry}
    {newcomer? : Option FeedId} {result : Except Error Unit}
    (hp : Registry.Places e.registry newcomer? (r, .done result))
    (ht : ∀ feed, newcomer? = some feed →
      task = .caller feed ∧ feed < e.fresh ∧ ¬e.registry.Serves feed) :
    ({ e with registry := r }.settle task result).Wiring := by
  have hwired : r.Wired := hp.wired h.wired fun feed hf => (ht feed hf).2.2
  have hlt : ∀ feed, r.Serves feed → feed < e.fresh := by
    intro feed hs
    rcases hp.serves feed hs with hs | ⟨hn, -⟩
    · exact h.serves_lt feed hs
    · exact (ht feed hn).2.1
  have hnew : ∀ id op finish feed, task ≠ .caller id →
      e.callers.get? id = some (.operation op finish) → op.newcomer? = some feed →
        ¬r.Serves feed := by
    intro id op finish feed hne hw hn hs
    have hid : feed = id := (ho.waits id _ hw).2.1 feed hn
    rcases hp.serves feed hs with hs | ⟨hfeed, -⟩
    · exact h.news id op finish feed hw hn hs
    · exact hne (hid ▸ (ht feed hfeed).1)
  refine ⟨?_, ?_, fun id op finish feed hw hn => ?_⟩
  · rw [registry_settle]
    exact hwired
  · rw [registry_settle, fresh_settle]
    exact hlt
  · rw [registry_settle]
    obtain ⟨hne, hw⟩ | hnone := ho.operation_of_settle hw
    · exact hnew id op finish feed hne hw hn
    · cases hnone.symm.trans hn

end Wiring

namespace Wires

theorem start (capacity : Nat) (timer : Timer) : (Engine.start capacity timer).Wires where
  wired := Registry.wired_empty
  serves_lt feed hs := absurd hs (not_serves_empty feed)
  news id op finish feed hw := by cases hw
  newcomer h feed hh := by cases hh

theorem extend (h : e.Wires) (hf : e.fresh ≤ e'.fresh) (hr : e'.registry = e.registry)
    (hh : e'.holder = e.holder)
    (hc : ∀ id op finish, e'.callers.get? id = some (.operation op finish) →
      e.callers.get? id = some (.operation op finish)) : e'.Wires where
  toWiring := h.toWiring.extend hf hr hc
  newcomer holder feed hs hn := by
    obtain ⟨ht, hlt, hnot⟩ := h.newcomer holder feed (hh ▸ hs) hn
    exact ⟨ht, Nat.lt_of_lt_of_le hlt hf, hr ▸ hnot⟩

theorem alike (ha : Alike e e') (h : e.Wires) : e'.Wires :=
  h.extend (Nat.le_of_eq ha.fresh.symm) ha.registry ha.holder fun _ _ _ hw =>
    ha.callers ▸ hw

theorem spare (h : e.Wires) (hs : Spares e e') : e'.Wires :=
  h.extend hs.fresh hs.registry hs.holder hs.operations

theorem book (ho : e.Orderly) (h : e.Wiring) (hh : e.holder = none) {task : Task}
    {p : Registry × Registry.Progress} {newcomer? : Option FeedId}
    (hp : Registry.Places e.registry newcomer? p)
    (ht : ∀ feed, newcomer? = some feed →
      task = .caller feed ∧ feed < e.fresh ∧ ¬e.registry.Serves feed) : (e.book task p).Wires := by
  obtain ⟨r, progress⟩ := p
  cases progress with
  | done result =>
    rw [book_done]
    refine ⟨h.settle ho hp ht, fun holder feed hholder => ?_⟩
    rw [holder_settle, hh] at hholder
    cases hholder
  | ask call pause =>
    have hsame : ∀ feed, r.Serves feed → e.registry.Serves feed := by
      intro feed hs
      refine (hp.serves feed hs).resolve_right ?_
      rintro ⟨-, result, hr⟩
      cases hr
    refine ⟨⟨?_, ?_, ?_⟩, ?_⟩
    · exact hp.wired h.wired fun feed hf => (ht feed hf).2.2
    · exact fun feed hs => h.serves_lt feed (hsame feed hs)
    · exact fun id op finish feed hw hn hs => h.news id op finish feed hw hn (hsame feed hs)
    · intro holder feed hholder hn
      cases hholder
      obtain ⟨htask, hlt, hnot⟩ := ht feed (hp.waits call pause feed rfl hn)
      exact ⟨htask, hlt, fun hs => hnot (hsame feed hs)⟩

theorem operate (ho : e.Orderly) (ha : e.Accounts) (h : e.Wires) {task : Task}
    {op : Registry.Operation} (hh : e.holder = none) (hi : e.Intends task op) :
    (e.book task (e.registry.begin op)).Wires := by
  refine book ho h.toWiring hh (Registry.places_begin e.registry op) fun feed hn => ?_
  cases task with
  | caller id =>
    obtain ⟨finish, hw⟩ := hi
    obtain ⟨hlt, hsuits, -⟩ := ho.waits id _ hw
    have hid : feed = id := hsuits feed hn
    exact ⟨hid ▸ rfl, hid ▸ hlt, h.news id op finish feed hw hn⟩
  | watcher f =>
    obtain ⟨o, hout, rfl⟩ := hi
    cases (ha.endings f o hout).symm.trans hn
  | dispatcher => exact hi.elim
  | poller id => exact hi.elim

theorem resume (ho : e.Orderly) (h : e.Wires) {holder : Holder} (answer : Except Error Unit)
    (hh : e.holder = some holder) :
    (({ e with holder := none }.note (.matchReturned holder.call answer)).book holder.task
      (e.registry.resume answer holder.pause)).Wires := by
  have hw : ({ e with holder := none }.note (.matchReturned holder.call answer)).Wiring :=
    h.toWiring.extend (Nat.le_refl _) rfl fun _ _ _ hw => hw
  exact book (ho.matchReturned _ answer) hw rfl
    (Registry.places_resume e.registry answer holder.pause) fun feed hf =>
      h.newcomer holder feed hh hf

theorem enrol (h : e.Wires) {w : Wait} (hw : w.Suits e.fresh) :
    ({ e with fresh := e.fresh + 1 }.await e.fresh w).Wires := by
  refine ⟨h.toWiring.enrol hw, fun holder feed hh hn => ?_⟩
  obtain ⟨ht, hlt, hnot⟩ := h.newcomer holder feed hh hn
  exact ⟨ht, Nat.lt_succ_of_lt hlt, hnot⟩

theorem move (ho : e.Orderly) (ha : e.Accounts) (h : e.Wires) (hm : Move e e') : e'.Wires := by
  obtain hs | ⟨w, hw, rfl⟩ | ⟨task, op, hh, hi, rfl⟩ | ⟨holder, answer, hh, rfl⟩ := hm.cases
  · exact h.spare hs
  · exact h.enrol hw
  · exact operate ho ha h hh hi
  · exact resume ho h answer hh

end Wires

theorem Attained.wires (h : e.Attained) : e.Wires := by
  induction h with
  | start capacity timer => exact .start capacity timer
  | alike _ ha ih => exact ih.alike ha
  | move h hm ih => exact ih.move h.orderly h.accounts hm

end UnitControl.Engine
