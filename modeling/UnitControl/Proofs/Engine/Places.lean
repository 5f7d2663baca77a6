import UnitControl.Proofs.Engine.Line

/-!
# Every task in its place

Whatever happens, each task that wants the registry has it or has one place in the line for it. So
the line can always be worked off: the registry is free and whoever is in the line can have it, or
the bus owes its holder the answer to one call.
-/

namespace UnitControl

namespace Poller

variable {p p' : Poller}

theorem isScoping_send (p : Poller) (clock : Clock) (parcel : Parcel Changes) :
    (p.send clock parcel).isScoping = false := by
  simp only [Poller.send, isScoping, asleep]
  split
  · rename_i hs
    split at hs <;> cases hs
  · rfl

theorem isScoping_of_scoped {clock : Clock} {members : List String}
    (h : p.step (.scoped clock members) = some p') : p'.isScoping = false := by
  simp only [Poller.step] at h
  split at h
  · cases h
    exact isScoping_send _ _ _
  · cases h

theorem step_of_isScoping (h : p.isScoping = true) (clock : Clock) :
    (∀ result, p.step (.listed clock result) = none) ∧ p.step (.unblock clock) = none ∧
      p.step (.wake clock) = none := by
  obtain ⟨rows, hs⟩ : ∃ rows, p.stage = .scoping rows := by
    unfold isScoping at h
    split at h
    · exact ⟨_, ‹_›⟩
    · cases h
  refine ⟨fun result => ?_, ?_, ?_⟩ <;> simp [Poller.step, isDue, hs]

theorem isScoping_of_consumer {lane : Lane} {event : Event}
    (he : event = .take lane ∨ event = .hangUp lane) (h : p.step event = some p') :
    p'.isScoping = p.isScoping := by
  obtain rfl | rfl := he
  · obtain ⟨feed, -, rfl⟩ := Option.map_eq_some_iff.1 h
    rfl
  · cases h
    rfl

end Poller

namespace Engine

variable {e e' : Engine} {loose : Option Task} {id : CallerId} {feed : FeedId}

namespace Lines

/-- The feed that a caller was to bring into the registry is not going to be watched. -/
theorem abandon (h : e.Lines (some (.caller id))) (hx : e.Expects id) {op : Registry.Operation}
    {finish : Finish} (hw : e.callers.get? id = some (.operation op finish))
    (hn : op.newcomer? ≠ none) :
    (e.setWatch id .over).Lines (some (.caller id)) := by
  refine h.setWatch ?_ rfl (.inl rfl)
  obtain hb | ⟨cancelled, hwatch⟩ := hx
  · exact absurd (hb op finish hw) hn
  · simp [Engine.wants, hwatch, Watch.isEnding]

theorem startWatch (h : e.Lines none) (hid : e.callers.get? feed = none) :
    (e.startWatch feed).Lines none := by
  have hb := bringsNone_of_none hid
  have hwatch : (e.outlets.get? feed).map Outlet.watch = e.watch? feed := rfl
  unfold Engine.startWatch
  rw [hwatch]
  split
  · rename_i he
    have hw : e.wants (.watcher feed) = false := by simp [Engine.wants, he, Watch.isEnding]
    exact (h.setWatch_ending hw (by rw [he]; rfl) hb).enlist fun _ ht => by cases ht
  · rename_i he
    have hw : e.wants (.watcher feed) = false := by simp [Engine.wants, he, Watch.isEnding]
    exact h.setWatch hw rfl (.inr (.inl hb))
  · exact h

theorem conclude (h : e.Lines (some (.caller id))) (hx : e.Expects id) {op : Registry.Operation}
    {finish : Finish} (hw : e.callers.get? id = some (.operation op finish))
    (hs : (Wait.operation op finish).Suits id) (result : Except Error Unit) :
    (e.conclude id op finish result).Lines none := by
  cases result with
  | error err =>
    simp only [Engine.conclude]
    cases hn : op.newcomer? with
    | none => exact h.answer_loose _
    | some feed =>
      obtain rfl := hs.1 feed hn
      have hover := h.abandon hx hw (by simp [hn])
      exact ((Abreast.closeFeed _ _).lines hover).answer_loose _
  | ok u =>
    cases finish with
    | answer => exact h.answer_loose _
    | watch =>
      simp only [Engine.conclude]
      cases hn : op.newcomer? with
      | none => exact h.answer_loose _
      | some feed =>
        obtain rfl := hs.1 feed hn
        refine (h.answer_loose _).startWatch ?_
        rw [get?_callers_answer, if_pos rfl]
    | undo next cause =>
      have hundo {x : Engine} (hl : x.Lines (some (.caller id))) :
          ((x.await id (.operation next (.fail (.noRuntime "unitlink-cancel" cause)))).enlist
            (.caller id)).Lines none := by
        refine (hl.await rfl (.inl rfl)).enlist fun c hc => ?_
        cases hc
        refine .inl fun op' finish' hop => ?_
        rw [get?_callers_await, if_pos rfl] at hop
        cases hop
        exact hs.2 next cause rfl
      simp only [Engine.conclude]
      cases hn : op.newcomer? with
      | none => exact hundo h
      | some feed =>
        obtain rfl := hs.1 feed hn
        exact hundo (h.abandon hx hw (by simp [hn]))
    | fail cause => exact h.answer_loose _

theorem finish {task : Task} (h : e.Lines (some task)) (ht : e.Operates task)
    (hx : ∀ id, task = .caller id → e.Expects id)
    (hs : ∀ id w, e.callers.get? id = some w → w.isForRegistry = true → w.Suits id)
    (result : Except Error Unit) : (e.finish task result).Lines none := by
  cases task with
  | caller id =>
    obtain ⟨op, f, hw⟩ := ht
    simp only [Engine.finish, hw]
    let x := e.note (.operated op result)
    have hxl : x.Lines (some (.caller id)) := (Abreast.note e _).lines h
    exact hxl.conclude ((hx id rfl).congr rfl rfl) hw (hs id _ hw rfl) result
  | watcher feed =>
    obtain ⟨hw, -⟩ := h.wants_of_loose (by simp)
    obtain ⟨o, ho⟩ : ∃ o, e.outlets.get? feed = some o := by
      cases ho : e.outlets.get? feed with
      | none => simp [Engine.wants, watch?, ho] at hw
      | some o => exact ⟨o, rfl⟩
    simp only [Engine.finish, ho]
    exact ((Abreast.note e _).lines h).setWatch_over
  | dispatcher => exact ht.elim
  | poller id => exact ht.elim

theorem proceed {task : Task} (h : e.Lines (some task)) (hh : e.holder = none)
    (ht : e.Operates task) (hx : ∀ id, task = .caller id → e.Expects id)
    (hs : ∀ id w, e.callers.get? id = some w → w.isForRegistry = true → w.Suits id)
    (p : Registry × Registry.Progress) : (e.proceed task p).Lines none := by
  obtain ⟨r, progress⟩ := p
  have hr : { e with registry := r }.Lines (some task) := (Abreast.register e r).lines h
  have htr : { e with registry := r }.Operates task := ht.congr fun _ _ => rfl
  have hxr : ∀ id, task = .caller id → { e with registry := r }.Expects id := fun id hid =>
    (hx id hid).congr rfl rfl
  cases progress with
  | done result => exact hr.finish htr hxr hs result
  | ask call pause => exact (Abreast.note _ _).lines (hr.hold hh htr hxr call pause)

theorem operate {task : Task} (h : e.Lines (some task)) (hh : e.holder = none)
    (ht : e.Operates task) (hx : ∀ id, task = .caller id → e.Expects id)
    (hs : ∀ id w, e.callers.get? id = some w → w.isForRegistry = true → w.Suits id)
    (op : Registry.Operation) : (e.operate task op).Lines none := by
  unfold Engine.operate
  cases e.registry.closes op with
  | none => exact h.proceed hh ht hx hs _
  | some feed =>
    have hc := Abreast.closeFeed e feed
    exact (hc.lines h).proceed hh (ht.congr fun _ _ => rfl)
      (fun id hid => (hx id hid).congr rfl (hc.watch id)) hs _

theorem putPoller {loose' : Option Task} {id : PollerId} (h : e.Lines loose) (hlt : id < e.fresh)
    {p : Poller} (hp : (e.wants (.poller id)).toNat + (decide (loose' = some (.poller id))).toNat =
      p.isScoping.toNat + (decide (loose = some (.poller id))).toNat)
    (hl : ∀ t, t ≠ .poller id → (loose' = some t ↔ loose = some t)) :
    (e.putPoller id p).Lines loose' where
  places t ht := by
    have h₁ := h.places t ht
    have hplaces : (e.putPoller id p).places t = e.places t := rfl
    rw [hplaces]
    by_cases htt : t = .poller id
    · subst htt
      have hw : (e.putPoller id p).wants (.poller id) = p.isScoping := by
        simp [Engine.wants, Engine.putPoller]
      rw [hw]
      omega
    · have hw : (e.putPoller id p).wants t = e.wants t := by
        cases t with
        | poller i =>
          have hi : i ≠ id := fun he => htt (by rw [he])
          simp [Engine.wants, Engine.putPoller, Table.get?_put, hi]
        | _ => rfl
      rw [hw, ← h₁]
      simp only [hl t htt]
  holder := h.holder
  expects c hc := h.expects c fun he => hc ((hl _ (by simp)).2 he)
  pollers_lt i q hq := by
    have hq : (e.pollers.put id p).get? i = some q := hq
    rw [Table.get?_put] at hq
    split at hq
    · rename_i hi
      exact hi ▸ hlt
    · exact h.pollers_lt i q hq

theorem afterPoll {id : PollerId} (h : e.Lines none) (hlt : id < e.fresh)
    (hn : e.wants (.poller id) = false) (p : Poller) : (e.afterPoll id p).Lines none := by
  unfold Engine.afterPoll
  dsimp only
  split
  · rename_i hp
    have hs : p.isScoping = false := by
      unfold Poller.isListing at hp
      split at hp
      · rename_i hst
        simp [Poller.isScoping, hst]
      · cases hp
    exact (Abreast.note _ _).lines (h.putPoller hlt (by simp [hn, hs]) fun t _ => .rfl)
  · split
    · rename_i hs
      have hput : (e.putPoller id p).Lines (some (.poller id)) :=
        h.putPoller hlt (by simp [hn, hs]) fun t ht => by simp [Ne.symm ht]
      exact hput.enlist fun c hc => by cases hc
    · rename_i hs
      exact h.putPoller hlt (by simp [hn, hs]) fun t _ => .rfl

theorem stepPoller {id : PollerId} {event : Poller.Event} (h : e.Lines none)
    (he : ∀ p : Poller, p.isScoping = true → p.step event = none)
    (hs : e.stepPoller? id event = some e') : e'.Lines none := by
  unfold stepPoller? at hs
  split at hs
  · rename_i p hp
    obtain ⟨p', hp', rfl⟩ := Option.map_eq_some_iff.1 hs
    have hn : p.isScoping = false :=
      Bool.eq_false_iff.2 fun hscoping => by cases (he p hscoping).symm.trans hp'
    exact h.afterPoll (h.pollers_lt id p hp) (by simp [Engine.wants, hp, hn]) p'
  · cases hs

theorem onPoller {id : PollerId} {event : Poller.Event} (h : e.Lines none)
    (he : ∀ p p' : Poller, p.step event = some p' → p'.isScoping = p.isScoping)
    (hs : e.onPoller? id event = some e') : e'.Lines none := by
  unfold onPoller? at hs
  split at hs
  · rename_i p hp
    obtain ⟨p', hp', rfl⟩ := Option.map_eq_some_iff.1 hs
    refine h.putPoller (h.pollers_lt id p hp) ?_ fun t _ => .rfl
    simp [Engine.wants, hp, he p p' hp']
  · cases hs

theorem enter {task : Task} (h : e.Lines (some task)) (hd : task ≠ .dispatcher)
    (hh : e.holder = none) (hx : ∀ id, task = .caller id → e.Expects id)
    (hs : ∀ id w, e.callers.get? id = some w → w.isForRegistry = true → w.Suits id) :
    (e.enter task).Lines none := by
  obtain ⟨hw, -⟩ := h.wants_of_loose hd
  cases task with
  | caller id =>
    obtain ⟨w, hwait, hreg⟩ := (Option.any_eq_true _ _).1 hw
    simp only [Engine.enter, hwait]
    cases w with
    | query q => exact h.answer_loose _
    | operation op finish => exact h.operate hh ⟨op, finish, hwait⟩ hx hs op
    | _ => cases hreg
  | watcher feed =>
    obtain ⟨w, hwatch, -⟩ := (Option.any_eq_true _ _).1 hw
    obtain ⟨o, ho, -⟩ := Option.map_eq_some_iff.1 hwatch
    simp only [Engine.enter, ho]
    exact h.operate hh trivial hx hs _
  | dispatcher => exact absurd rfl hd
  | poller id =>
    obtain ⟨p, hp, hscoping⟩ := (Option.any_eq_true _ _).1 hw
    simp only [Engine.enter, hp]
    split
    · rename_i p' hp'
      refine h.putPoller (h.pollers_lt id p hp) ?_ fun t ht => ?_
      · simp [hw, Poller.isScoping_of_scoped hp']
      · simp [Ne.symm ht]
    · rename_i hn
      have hnone : p.isScoping = false :=
        (isSome_step_scoped p e.clock _).symm.trans (congrArg Option.isSome hn)
      cases hscoping.symm.trans hnone

theorem openFeed (h : e.Lines none) (hid : e.callers.get? id = none)
    (hout : e.outlets.get? id = none) (values faults : Nat) (ending : Registry.Operation) :
    (e.openFeed id values faults ending).Lines none where
  places t ht := by
    have hp := h.places t ht
    have hplaces : (e.openFeed id values faults ending).places t = e.places t := rfl
    have hw : (e.openFeed id values faults ending).wants t = e.wants t := by
      cases t with
      | watcher f =>
        simp only [Engine.wants, watch?, Engine.openFeed, Table.get?_put]
        split
        · rename_i hf
          rw [hf, hout]
          rfl
        · rfl
      | _ => rfl
    rw [hplaces, hw, hp]
  holder := h.holder
  expects c hc := by
    by_cases hcid : c = id
    · subst hcid
      exact .inl (bringsNone_of_none (e := e.openFeed c values faults ending) hid)
    · refine (h.expects c hc).congr rfl ?_
      simp only [watch?, Engine.openFeed, Table.get?_put, if_neg hcid]
  pollers_lt := h.pollers_lt

theorem watch?_openFeed (e : Engine) (id : FeedId) (values faults : Nat)
    (ending : Registry.Operation) :
    (e.openFeed id values faults ending).watch? id = some (.expected false) := by
  simp [watch?, Engine.openFeed]

theorem operateLater (h : e.Lines none) (hid : e.callers.get? id = none)
    {op : Registry.Operation}
    (hx : op.newcomer? = none ∨ ∃ cancelled, e.watch? id = some (.expected cancelled))
    (finish : Finish) : (e.operateLater id op finish).Lines none := by
  refine (h.await (w := .operation op finish) rfl (.inr ⟨rfl, hid⟩)).enlist fun c hc => ?_
  cases hc
  refine hx.imp (fun hn op' finish' hop => ?_) fun hwatch => hwatch
  rw [get?_callers_await, if_pos rfl] at hop
  cases hop
  exact hn

theorem queryLater (h : e.Lines none) (hid : e.callers.get? id = none) (q : Query) :
    (e.queryLater id q).Lines none := by
  refine (h.await (w := .query q) rfl (.inr ⟨rfl, hid⟩)).enlist fun c hc => ?_
  cases hc
  refine .inl fun op finish hop => ?_
  rw [get?_callers_await, if_pos rfl] at hop
  cases hop

theorem operateOn (h : e.Lines none) (hid : e.callers.get? id = none) (unit : String)
    {op : String → Registry.Operation} (hop : ∀ unit, (op unit).newcomer? = none) :
    (e.operateOn id unit op).Lines none := by
  unfold Engine.operateOn
  split
  · exact h.operateLater hid (.inl (hop _)) _
  · exact (Abreast.note e _).lines h

theorem submit (h : e.Lines none) (hid : e.callers.get? id = none) (request : JobRequest)
    (limit : Option (Nat × Error)) : (e.submit id request limit).Lines none := by
  unfold Engine.submit
  split
  · exact (Abreast.note e _).lines h
  · exact (Abreast.send _ _).lines (h.await_aside (w := .job _) rfl hid)

theorem submitWithin (h : e.Lines none) (hid : e.callers.get? id = none) (request : JobRequest)
    (d : Duration) (ago : Nat) (looks : Bool) :
    (e.submitWithin id request d ago looks).Lines none := by
  obtain ⟨err, -, hs⟩ | ⟨deadline, hs⟩ := submitWithin_cases e id request d ago looks
  · rw [hs]
    exact (Abreast.note e _).lines h
  · rw [hs]
    exact h.submit hid _ _

theorem call (h : e.Lines none) (hid : e.callers.get? id = none) (hout : e.outlets.get? id = none)
    (call : Call) : (e.call id call).Lines none := by
  cases call with
  | submit request limit =>
    cases limit with
    | none => exact h.submit hid _ _
    | some d => exact h.submitWithin hid request d 0 false
  | submitLate request d ago looks => exact h.submitWithin hid request d ago looks
  | job kind unit mode =>
    simp only [Engine.call]
    split
    · exact h.submit hid _ _
    · exact (Abreast.note e _).lines h
  | pendingJobs =>
    simp only [Engine.call]
    split
    · exact (Abreast.note e _).lines h
    · exact (Abreast.send _ _).lines (h.await_aside (w := .pending) rfl hid)
  | listUnits => exact (Abreast.note _ _).lines (h.await_aside (w := .listing) rfl hid)
  | add s unit => exact h.operateOn hid unit fun _ => rfl
  | remove s unit => exact h.operateOn hid unit fun _ => rfl
  | contains s unit =>
    simp only [Engine.call]
    split
    · exact h.queryLater hid _
    · exact (Abreast.note e _).lines h
  | members s => exact h.queryLater hid _
  | attach s values faults refusal =>
    exact (h.openFeed hid hout _ _ _).operateLater hid (.inr ⟨false, watch?_openFeed ..⟩) _
  | close s =>
    have hs : { e with sets := e.sets.filter (· != s) }.Lines none :=
      h.of_eq (Nat.le_refl _) rfl rfl rfl rfl rfl
    exact hs.operateLater hid (.inl rfl) _
  | subscribe unit values refusal =>
    have ho := h.openFeed hid hout values 0 (.unsubscribe id)
    have hwatch := watch?_openFeed e id values 0 (.unsubscribe id)
    simp only [Engine.call]
    split
    · exact ho.operateLater hid (.inr ⟨false, hwatch⟩) _
    · have hw : (e.openFeed id values 0 (.unsubscribe id)).wants (.watcher id) = false := by
        simp [Engine.wants, hwatch, Watch.isEnding]
      have hover := ho.setWatch (w := .over) hw rfl
        (.inr (.inl (bringsNone_of_none (e := e.openFeed id values 0 (.unsubscribe id)) hid)))
      exact ((Abreast.closeFeed _ _).trans (.note _ _)).lines hover
  | references unit =>
    simp only [Engine.call]
    split
    · exact h.queryLater hid _
    · exact (Abreast.note e _).lines h

theorem cancel (h : e.Lines none) (hs : e.cancel? feed = some e') : e'.Lines none := by
  have hwatch : (e.outlets.get? feed).map Outlet.watch = e.watch? feed := rfl
  unfold cancel? at hs
  rw [hwatch] at hs
  split at hs
  · rename_i he
    cases hs
    have hw : e.wants (.watcher feed) = false := by simp [Engine.wants, he, Watch.isEnding]
    exact h.setWatch hw rfl (.inr (.inr ⟨true, rfl⟩))
  · rename_i he
    cases hs
    have hw : e.wants (.watcher feed) = false := by simp [Engine.wants, he, Watch.isEnding]
    have hb : e.BringsNone feed := (h.expects feed (by simp)).resolve_right (by simp [he])
    exact (h.setWatch_ending hw (by rw [he]; rfl) hb).enlist fun _ ht => by cases ht
  · cases hs

theorem start (capacity : Nat) (timer : Timer) : (Engine.start capacity timer).Lines none where
  places t _ := by
    cases t <;> rfl
  holder h hh := by cases hh
  expects id _ := .inl (bringsNone_of_none rfl)
  pollers_lt id p hp := by cases hp

theorem startle (h : e.Lines loose) : { e with dispatcher := e.dispatcher.startle }.Lines loose :=
  (Abreast.setDispatcher e _).lines h

theorem erase_dispatcher (h : e.Lines none) :
    { e with queue := e.queue.erase .dispatcher }.Lines none where
  places t ht := by
    have hp := h.places t ht
    have hw : { e with queue := e.queue.erase .dispatcher }.wants t = e.wants t := by
      cases t <;> rfl
    rw [hw, ← hp]
    simp [Engine.places, List.count_erase_of_ne ht]
  holder := h.holder
  expects := h.expects
  pollers_lt := h.pollers_lt

theorem askTargets (h : e.Lines none) : e.askTargets.Lines none := by
  unfold Engine.askTargets
  split
  · refine ⟨fun t ht => ?_, h.holder, h.expects, h.pollers_lt⟩
    have hp := h.places t ht
    have hw : (e.enlist .dispatcher).wants t = e.wants t := by cases t <;> rfl
    rw [hw, ← hp, places_enlist]
    simp [Ne.symm ht]
  · exact h

end Lines

theorem Orderly.not_wants_of_reply (h : e.Orderly) {r : Dispatcher × List Reply}
    (hc : e.dispatcher.Conserves r) {reply : Reply} (hm : reply ∈ r.2) :
    e.wants (.caller reply.1) = false := by
  have hslot : reply.1 ∈ e.dispatcher.slots :=
    hc.subset (List.mem_append_left _ (List.mem_map_of_mem hm))
  obtain ⟨w, hw, hf⟩ | ⟨request, d, -, hanswered⟩ := h.slots _ hslot
  · cases w <;> first | exact hf.elim | simp [wants, hw, Wait.isForRegistry]
  · simp [wants, (h.answered _ _ hanswered).2]

namespace Lines

theorem reaction (hatt : e.Attained) (hopens : e.Opens) (h : e.Lines none) {event : Event}
    (hr : e.Reaction event e') : e'.Lines none := by
  have ho := hatt.orderly
  have hs : ∀ id w, e.callers.get? id = some w → w.isForRegistry = true → w.Suits id := by
    intro id w hw hreg
    have ha := (ho.waits id w hw).2
    cases w with
    | query q => exact ha
    | operation op finish => exact ha
    | _ => cases hreg
  have hnote (entry : Entry) : (e.note entry).Lines none := (Abreast.note e entry).lines h
  cases hr with
  | call hp =>
    have hn : { e with fresh := e.fresh + 1 }.Lines none := (Abreast.number e).lines h
    refine hn.call ho.callers_fresh (Option.eq_none_iff_forall_ne_some.2 fun o hout => ?_) _
    have hout : e.outlets.get? e.fresh = some o := hout
    exact absurd (hopens.lt e.fresh (by simp [mail, hout])) (Nat.lt_irrefl _)
  | expire hw ht => exact h.answer (by simp [Engine.wants, hw, Wait.isForRegistry]) _
  | leave hl => exact h.of_eq (Nat.le_refl _) rfl rfl rfl rfl rfl
  | poll hp =>
    have hn : { e with fresh := e.fresh + 1 }.Lines none := (Abreast.number e).lines h
    refine hn.putPoller (Nat.lt_succ_self _) ?_ fun t _ => .rfl
    cases hq : e.pollers.get? e.fresh with
    | none => simp [Engine.wants, hq, Poller.isScoping, Poller.start]
    | some p => exact absurd (h.pollers_lt _ p hq) (Nat.lt_irrefl _)
  | openSet ho => exact h.of_eq (Nat.le_succ _) rfl rfl rfl rfl rfl
  | dropSet s => exact h.of_eq (Nat.le_refl _) rfl rfl rfl rfl rfl
  | dropHandle => exact h.of_eq (Nat.le_refl _) rfl rfl rfl rfl rfl
  | cancel hc => exact h.cancel hc
  | takeFeed hf => exact (Abreast.onFeed hf).lines h
  | takePoller hp => exact h.onPoller (fun _ _ => Poller.isScoping_of_consumer (.inl rfl)) hp
  | hangUpFeed hf => exact (Abreast.onFeed hf).lines h
  | hangUpPoller hp => exact h.onPoller (fun _ _ => Poller.isScoping_of_consumer (.inr rfl)) hp
  | tick passed shown => exact h.of_eq (Nat.le_refl _) rfl rfl rfl rfl rfl
  | signal hs => exact ((Abreast.setDispatcher e _).trans (.note _ _)).lines h
  | endSignals => exact (Abreast.setDispatcher e _).lines h
  | @jobReturned c request result r hs hr =>
    exact (hnote (.jobReturned c result)).dispatch
      fun _ => ho.not_wants_of_reply (Dispatcher.conserves_called hs hr)
  | @matchReturned holder answer hh =>
    have hl := h.release hh
    have ht := h.holder holder hh
    exact ((Abreast.note _ _).lines hl).proceed rfl (ht.congr fun _ _ => rfl)
      (fun id _ => (h.expects id (by simp)).congr rfl rfl) hs _
  | listed result hw => exact h.answer (by simp [Engine.wants, hw, Wait.isForRegistry]) _
  | @polled id result e' hp =>
    exact (hnote (.listed id result)).stepPoller
      (fun p hscoping => (p.step_of_isScoping hscoping e.clock).1 result) hp
  | @grant task hh hq =>
    by_cases hd : task = .dispatcher
    · subst hd
      have hl := h.erase_dispatcher
      simp only [Engine.enter]
      split
      · exact ((Abreast.setDispatcher _ _).trans (.note _ _)).lines hl
      · exact hl
    · exact (h.leaveLine hq).enter hd hh (fun id _ => (h.expects id (by simp)).congr rfl rfl) hs
  | arm => exact (Abreast.setDispatcher e _).lines h
  | takeCommand hr =>
    exact (Abreast.noteCall _).lines
      (h.dispatch fun _ => ho.not_wants_of_reply (Dispatcher.conserves_takeCommand hr))
  | @takeSignal item rest r hi hr =>
    exact ((hnote (.tookSignal item)).dispatch fun _ =>
      ho.not_wants_of_reply (Dispatcher.conserves_takeSignal hi hr)).askTargets
  | deliver hs => exact (Abreast.deliver e _ _).lines h
  | look hl => exact (Abreast.look hl).lines h
  | unblock hu => exact (Abreast.unblock hu).lines h
  | stop hm =>
    exact (hnote .stopped).dispatch fun _ =>
      ho.not_wants_of_reply (Dispatcher.conserves_stop (Dispatcher.stage_of_mayStop hm))
  | unblockPoller hp =>
    exact h.stepPoller (fun p hscoping => (p.step_of_isScoping hscoping e.clock).2.1) hp
  | wakePoller hp =>
    exact h.stepPoller (fun p hscoping => (p.step_of_isScoping hscoping e.clock).2.2) hp

theorem step (hatt : e.Attained) (hopens : e.Opens) (h : e.Lines none) {event : Event}
    (hs : e.step event = some e') : e'.Lines none :=
  of_step hs (fun _ hr => h.reaction hatt hopens hr) fun _ => startle

theorem run (hatt : e.Attained) (hopens : e.Opens) (h : e.Lines none) {events : List Event}
    (hr : e.run events = some e') : e'.Lines none :=
  (run_keeps (P := fun x => x.Attained ∧ x.Opens ∧ x.Lines none)
    (fun ⟨hatt, hopens, h⟩ hs =>
      ⟨hatt.moves (moves_of_step hs), hopens.step hatt hs, h.step hatt hopens hs⟩)
    ⟨hatt, hopens, h⟩ hr).2.2

end Lines

theorem Reachable.run {events : List Event} (h : e.Reachable) (hr : e.run events = some e') :
    e'.Reachable := by
  obtain ⟨capacity, timer, before, hb⟩ := h
  exact ⟨capacity, timer, before ++ events, by rw [run_append, hb, Option.bind_some, hr]⟩

theorem Reachable.lines (h : e.Reachable) : e.Lines none := by
  obtain ⟨capacity, timer, events, hr⟩ := h
  exact (Lines.start capacity timer).run (.start capacity timer) (.start capacity timer) hr

/-- The registry is had by a task that wants it, in one place. -/
theorem Reachable.places (h : e.Reachable) (task : Task) :
    e.places task = (e.wants task).toNat := by
  by_cases ht : task = .dispatcher
  · subst ht
    have hfree : (e.holder.any fun holder => decide (holder.task = .dispatcher)) = false := by
      cases hh : e.holder with
      | none => rfl
      | some holder =>
        have hop := h.lines.holder holder hh
        simp only [Option.any_some, decide_eq_false_iff_not]
        intro hd
        rw [hd] at hop
        exact hop
    have hturns := h.paced.turns
    simp only [Engine.places, wants, hfree, Bool.toNat_false, Nat.add_zero, hturns]
    cases e.dispatcher.stage.isCollecting <;> rfl
  · simpa using h.lines.places task ht

theorem Reachable.wants_of_mem_queue (h : e.Reachable) (hq : task ∈ e.queue) :
    e.wants task = true := by
  have hp := h.places task
  have hc := List.count_pos_iff.2 hq
  cases hw : e.wants task with
  | true => rfl
  | false =>
    rw [hw, Engine.places] at hp
    simp only [Bool.toNat_false] at hp
    omega

end Engine

end UnitControl
