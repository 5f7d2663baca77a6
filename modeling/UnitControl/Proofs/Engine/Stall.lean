import UnitControl.Proofs.Engine.Endings

/-!
# Sends that wait

A dispatcher that found no room on a lane waits until the consumer makes some. The end of the
subscription closes the lane but wakes nobody, so that the dispatcher finds out only when something
else has roused it.
-/

namespace UnitControl

def Stage.isCollecting : Stage → Bool
  | collecting _ => true
  | _ => false

/-- Where the dispatcher waits for room, what it has still to serve, and whether it is roused. -/
def Stage.standstill? : Stage → Option (Lane × FeedId × List FeedId × Bool)
  | blocked parcel feed rest roused => some (parcel.lane, feed, rest, roused)
  | _ => none

theorem Stage.standstill?_eq_some_iff {s : Stage} {lane : Lane} {feed : FeedId}
    {rest : List FeedId} {roused : Bool} : s.standstill? = some (lane, feed, rest, roused) ↔
      ∃ parcel, s = .blocked parcel feed rest roused ∧ parcel.lane = lane := by
  refine ⟨fun h => ?_, ?_⟩
  · cases s with
    | blocked parcel f r b =>
      cases h
      exact ⟨parcel, rfl, rfl⟩
    | _ => cases h
  · rintro ⟨parcel, rfl, rfl⟩
    rfl

namespace Dispatcher

variable (d : Dispatcher)

theorem commands_rouse : d.rouse.commands = d.commands := by
  unfold rouse
  split <;> rfl

theorem isCollecting_rouse : d.rouse.stage.isCollecting = d.stage.isCollecting := by
  unfold rouse
  split
  · rename_i hs
    rw [hs]
    rfl
  · rfl

variable {d} {parcel : Parcel Update} {feed : FeedId} {rest : List FeedId} {roused : Bool}

theorem stage_rouse_of_blocked (h : d.stage = .blocked parcel feed rest roused) :
    d.rouse.stage = .blocked parcel feed rest true := by
  unfold rouse
  rw [h]

theorem blocked_of_rouse (h : d.rouse.stage = .blocked parcel feed rest roused) :
    ∃ roused, d.stage = .blocked parcel feed rest roused := by
  unfold rouse at h
  split at h
  · rename_i b hs
    cases h
    exact ⟨b, hs⟩
  · exact ⟨roused, h⟩

theorem stage_rouse_of_sending (h : d.stage = .sending parcel rest) :
    d.rouse.stage = .sending parcel rest := by
  unfold rouse
  rw [h]
  exact h

end Dispatcher

namespace Engine

variable {e e' : Engine} {event : Event} {feed : FeedId} {rest : List FeedId}
  {parcel : Parcel Update} {roused : Bool} {o : Outlet}

theorem onFeed_cases {lane : Lane} {f : Feed Update → Option (Feed Update)}
    (h : e.onFeed? feed lane f = some e') :
    ∃ o f', e.outlets.get? feed = some o ∧ f o.feed = some f' ∧
      e'.outlets = e.outlets.put feed { o with feed := f' } ∧ e'.queue = e.queue ∧
      e'.dispatcher = if o.feed.parked lane && !f'.parked lane then e.dispatcher.rouse
        else e.dispatcher := by
  unfold onFeed? at h
  split at h
  · rename_i o ho
    obtain ⟨f', hf, rfl⟩ := Option.map_eq_some_iff.1 h
    exact ⟨o, f', ho, hf, rfl, rfl, rfl⟩
  · cases h

theorem askTargets_of_idle (h : e.dispatcher.stage = .idle) : e.askTargets = e := by
  unfold askTargets
  rw [h]

/-- The dispatcher wants the registry to collect targets and for nothing else, and where it waits
for room there is an outlet. -/
structure Paced (e : Engine) : Prop where
  turns : e.queue.count .dispatcher = if e.dispatcher.stage.isCollecting then 1 else 0
  waits : ∀ parcel feed rest roused, e.dispatcher.stage = .blocked parcel feed rest roused →
    feed < e.fresh ∧ ∃ o, e.outlets.get? feed = some o ∧ o.feed.ParksRightly parcel.lane

namespace Paced

theorem start (capacity : Nat) (timer : Timer) : (Engine.start capacity timer).Paced where
  turns := rfl
  waits _ _ _ _ hs := by cases hs

theorem count_of_not_collecting (h : e.Paced) (hc : e.dispatcher.stage.isCollecting = false) :
    e.queue.count .dispatcher = 0 := by
  rw [h.turns, hc]
  rfl

theorem rouse (h : e.Paced) : { e with dispatcher := e.dispatcher.rouse }.Paced where
  turns := h.turns.trans (by rw [e.dispatcher.isCollecting_rouse])
  waits parcel feed rest _ hs := by
    obtain ⟨roused, hs⟩ := Dispatcher.blocked_of_rouse hs
    exact h.waits parcel feed rest roused hs

theorem keep (h : e.Paced) (hr : e.Reaction event e')
    (hq : e'.queue.count .dispatcher = e.queue.count .dispatcher)
    (hc : e'.dispatcher.stage.isCollecting = e.dispatcher.stage.isCollecting)
    (hw : ∀ parcel feed rest roused, e'.dispatcher.stage = .blocked parcel feed rest roused →
      ∃ roused, e.dispatcher.stage = .blocked parcel feed rest roused) : e'.Paced := by
  refine ⟨by rw [hq, hc, h.turns], fun parcel feed rest roused hs => ?_⟩
  obtain ⟨roused', hs⟩ := hw parcel feed rest roused hs
  obtain ⟨hlt, o, ho, hp⟩ := h.waits parcel feed rest roused' hs
  obtain ⟨o', ho', -, hp'⟩ := stays_of_reaction (Feed.lasting_parksRightly _) hr hlt ho
  refine ⟨Nat.lt_of_lt_of_le hlt ?_, o', ho', hp' hp⟩
  have hfresh : e'.fresh = if event.numbers then e.fresh + 1 else e.fresh :=
    (shift_of_reaction hr).fresh
  rw [hfresh]
  split <;> omega

theorem pass (h : e.Paced) (hr : e.Reaction event e') (hq : e'.queue = e.queue) {s t : Stage}
    (hs : e.dispatcher.stage = s) (ht : e'.dispatcher.stage = t)
    (hc : s.isCollecting = false) (hc' : t.isCollecting = false)
    (hb : ∀ parcel feed rest roused, t ≠ .blocked parcel feed rest roused) : e'.Paced :=
  h.keep hr (by rw [hq]) (by rw [hs, ht, hc, hc']) fun parcel feed rest roused hw =>
    absurd (ht.symm.trans hw) (hb parcel feed rest roused)

theorem onFeed (h : e.Paced) (hr : e.Reaction event e') {lane : Lane}
    {f : Feed Update → Option (Feed Update)} (hf : e.onFeed? feed lane f = some e') :
    e'.Paced := by
  obtain ⟨o, f', -, -, -, hq, hd⟩ := onFeed_cases hf
  split at hd
  · refine h.keep hr (by rw [hq]) (by rw [hd, e.dispatcher.isCollecting_rouse]) ?_
    intro parcel g rest roused hs
    exact Dispatcher.blocked_of_rouse (hd ▸ hs)
  · exact h.keep hr (by rw [hq]) (by rw [hd]) fun parcel g rest roused hs => ⟨roused, hd ▸ hs⟩

theorem collect (h : e.Paced) (hr : e.Reaction (.grant .dispatcher) e') : e'.Paced := by
  cases hr with
  | grant hh hq =>
    simp only [enter]
    split
    · rename_i hs
      refine ⟨?_, fun _ _ _ _ hb => by cases hb⟩
      have ht := h.turns
      rw [show e.dispatcher.stage = _ from hs] at ht
      exact (List.count_erase_self).trans (by rw [ht]; rfl)
    · rename_i hn
      have hc : e.dispatcher.stage.isCollecting = false := by
        cases hs : e.dispatcher.stage with
        | collecting parcel => exact absurd hs (hn parcel)
        | _ => rfl
      have h0 := List.count_eq_zero.1 (h.count_of_not_collecting hc)
      exact absurd (List.contains_iff_mem.1 hq) h0

theorem takeSignal (h : e.Paced) (hr : e.Reaction .takeSignal e') : e'.Paced := by
  cases id hr with
  | @takeSignal item later r hi ht =>
    have hpass (hs : e.dispatcher.stage = .idle)
        (hidle : ((e.note (.tookSignal item)).dispatch r).dispatcher.stage = .idle) :
        ((e.note (.tookSignal item)).dispatch r).askTargets.Paced := by
      rw [askTargets_of_idle hidle] at hr ⊢
      exact h.pass hr (queue_dispatch _ _) hs hidle rfl rfl (by simp)
    obtain ⟨hs, ⟨path, output, c, -, -, he⟩ | ⟨stage, rfl | ⟨parcel, rfl⟩, -, he⟩⟩ :=
      takeSignal_turn hi ht
    · refine hpass hs ?_
      rw [he, dispatcher_answer]
      exact hs
    · refine hpass hs ?_
      rw [he]
      rfl
    · have h0 := h.count_of_not_collecting (by rw [hs]; rfl)
      rw [he]
      refine ⟨?_, fun _ _ _ _ hb => by cases hb⟩
      change (e.queue ++ [Task.dispatcher]).count .dispatcher = 1
      rw [List.count_append, h0]
      rfl

theorem deliver (hopens : e.Opens) (h : e.Paced) (hr : e.Reaction .deliver e') : e'.Paced := by
  cases id hr with
  | @deliver parcel targets hs =>
    cases targets with
    | nil => exact h.pass hr rfl hs (t := .idle) rfl rfl rfl (by simp)
    | cons feed rest =>
      have hlt : feed < e.fresh :=
        hopens.lt feed (hopens.targets parcel _ (position_sending hs) feed List.mem_cons_self)
      cases ho : e.outlets.get? feed with
      | none =>
        simp only [Engine.deliver, ho] at hr ⊢
        exact h.pass hr rfl hs (t := .sending parcel rest) rfl rfl rfl (by simp)
      | some o =>
        simp only [Engine.deliver, ho] at hr ⊢
        by_cases ha : o.feed.accepts parcel.lane = true
        · rw [if_pos ha] at hr ⊢
          by_cases hp : (o.feed.send parcel).parked parcel.lane = true
          · rw [if_pos hp]
            refine ⟨h.count_of_not_collecting (by rw [hs]; rfl), fun p g r b hb => ?_⟩
            cases hb
            exact ⟨hlt, _, Table.get?_put_self _ _ _, Feed.parksRightly_send ha⟩
          · rw [if_neg hp] at hr ⊢
            exact h.pass hr rfl hs (t := .sending parcel rest) rfl rfl rfl (by simp)
        · rw [if_neg ha] at hr ⊢
          exact h.pass hr rfl hs (t := .sending parcel rest) rfl rfl rfl (by simp)

theorem reaction (hopens : e.Opens) (h : e.Paced) (hr : e.Reaction event e') : e'.Paced := by
  cases ha : event.isAside with
  | true =>
    have hp := passesBy_of_reaction hr ha
    exact h.keep hr hp.turns (by rw [hp.stage]) fun _ _ _ roused hs => ⟨roused, hp.stage ▸ hs⟩
  | false =>
    cases id hr with
    | takeFeed hf => exact h.onFeed hr hf
    | hangUpFeed hf => exact h.onFeed hr hf
    | jobReturned hs hc =>
      refine h.pass hr (queue_dispatch _ _) hs (t := .idle) ?_ rfl rfl (by simp)
      rw [dispatcher_dispatch]
      obtain ⟨err, -, rfl⟩ | ⟨path, -, rfl⟩ := Dispatcher.called_cases hs hc <;> rfl
    | @grant task hh hq =>
      cases task with
      | dispatcher => exact h.collect hr
      | _ => cases ha
    | takeCommand ht =>
      obtain ⟨hs, ⟨c, request, rest, -, he⟩ | ⟨c, rest, -, he⟩⟩ := takeCommand_turn ht
      · refine h.pass hr ?_ hs (t := .calling c request) ?_ rfl rfl (by simp)
        · rw [he]
          rfl
        · rw [he]
          rfl
      · refine h.pass hr ?_ hs (t := .idle) ?_ rfl rfl (by simp)
        · rw [he, queue_answer]
        · rw [he, dispatcher_answer]
          exact hs
    | takeSignal hi ht => exact h.takeSignal hr
    | deliver hs => exact h.deliver hopens hr
    | look hl =>
      unfold look? at hl
      split at hl
      · rename_i parcel feed rest hs
        cases hl
        refine h.keep hr rfl ?_ fun p g r b hb => ?_
        · dsimp only
          rw [hs]
          split <;> rfl
        · dsimp only at hb
          split at hb
          · cases hb
            exact ⟨true, hs⟩
          · cases hb
      · cases hl
    | unblock hu =>
      unfold unblock? at hu
      split at hu
      · rename_i parcel feed rest b hs
        split at hu
        · cases hu
        · cases hu
          exact h.pass hr rfl hs (t := .sending parcel rest) rfl rfl rfl (by simp)
      · cases hu
    | stop hm =>
      refine h.pass hr (queue_dispatch _ _) (Dispatcher.stage_of_mayStop hm) (t := .stopped) ?_ rfl
        rfl (by simp)
      rw [dispatcher_dispatch]
      rfl
    | _ => cases ha

theorem startle (h : e.Paced) : { e with dispatcher := e.dispatcher.startle }.Paced :=
  ⟨h.rouse.turns, h.rouse.waits⟩

theorem step (hopens : e.Opens) (h : e.Paced) (hs : e.step event = some e') : e'.Paced :=
  of_step hs (fun _ hr => h.reaction hopens hr) fun _ => startle

theorem run (hatt : e.Attained) (hopens : e.Opens) (h : e.Paced) {events : List Event}
    (hr : e.run events = some e') : e'.Paced :=
  (run_keeps (P := fun x => x.Attained ∧ x.Opens ∧ x.Paced)
    (fun ⟨hatt, hopens, h⟩ hs =>
      ⟨hatt.moves (moves_of_step hs), hopens.step hatt hs, h.step hopens hs⟩)
    ⟨hatt, hopens, h⟩ hr).2.2

end Paced

theorem Reachable.opens (h : e.Reachable) : e.Opens := by
  obtain ⟨capacity, timer, events, hr⟩ := h
  exact (Opens.start capacity timer).run (.start capacity timer) hr

theorem Reachable.paced (h : e.Reachable) : e.Paced := by
  obtain ⟨capacity, timer, events, hr⟩ := h
  exact (Paced.start capacity timer).run (.start capacity timer) (.start capacity timer) hr

/-- The dispatcher waits for room on a lane, and nobody has roused it. -/
structure Stalls (e : Engine) (parcel : Parcel Update) (feed : FeedId) (rest : List FeedId) :
    Prop where
  stage : e.dispatcher.stage = .blocked parcel feed rest false
  parked : ∃ o, e.outlets.get? feed = some o ∧ o.feed.parked parcel.lane = true

/-- A consumer takes a parcel from a lane on which a send is parked, or goes away from it. -/
def EndsSend (e : Engine) (event : Event) : Prop :=
  ∃ feed lane o, (event = .take (.feed feed) lane ∨ event = .hangUp (.feed feed) lane) ∧
    e.outlets.get? feed = some o ∧ o.feed.parked lane = true

def Wakes (e : Engine) (event : Event) (e' : Engine) : Prop :=
  e.EndsSend event ∨ e.startles e' = true

theorem step_cases (h : e.step event = some e') :
    ∃ e₁, e.Reaction event e₁ ∧ e.startles e' = e.startles e₁ ∧
      (e.startles e' = false ∧ e' = e₁ ∨
        e.startles e' = true ∧ e' = { e₁ with dispatcher := e₁.dispatcher.startle }) := by
  obtain ⟨e₁, h₁, rfl⟩ := Option.map_eq_some_iff.1 h
  have hstartle : e.startles { e₁ with dispatcher := e₁.dispatcher.startle } = e.startles e₁ := by
    simp only [startles, Dispatcher.startle, Dispatcher.commands_rouse]
    rfl
  refine ⟨e₁, reaction_of_react h₁, ?_⟩
  cases hs : e.startles e₁ with
  | false => exact ⟨hs, .inl ⟨hs, rfl⟩⟩
  | true => exact ⟨hstartle.trans hs, .inr ⟨hstartle.trans hs, rfl⟩⟩

namespace Stalls

/-- An event that ends no send finds the dispatcher waiting, and leaves it so. -/
theorem reaction (h : e.Stalls parcel feed rest) (hlt : feed < e.fresh)
    (hr : e.Reaction event e') (hn : ¬e.EndsSend event) : e'.Stalls parcel feed rest := by
  obtain ⟨hs, o, ho, hp⟩ := h
  have hother {s : Stage} (hs' : e.dispatcher.stage = s)
      (hne : s ≠ .blocked parcel feed rest false) : False := hne (hs'.symm.trans hs)
  have hon {g : FeedId} {lane : Lane} {f : Feed Update → Option (Feed Update)}
      (hf : e.onFeed? g lane f = some e')
      (hg : ∀ og, e.outlets.get? g = some og → og.feed.parked lane = false)
      (hkeep : ∀ x x' l, f x = some x' → l ≠ lane → x'.parked l = x.parked l) :
      e'.Stalls parcel feed rest := by
    obtain ⟨og, f', hog, hx, hout, -, hd⟩ := onFeed_cases hf
    rw [hg og hog, Bool.false_and, if_neg (by simp)] at hd
    refine ⟨hd ▸ hs, ?_⟩
    rw [hout, Table.get?_put]
    split
    · rename_i hfg
      subst hfg
      cases Option.some.inj (ho.symm.trans hog)
      have hl : parcel.lane ≠ lane := by
        rintro rfl
        rw [hg o ho] at hp
        cases hp
      exact ⟨_, rfl, (hkeep _ _ _ hx hl).trans hp⟩
    · exact ⟨o, ho, hp⟩
  cases ha : event.isAside with
  | true =>
    have hpass := passesBy_of_reaction hr ha
    obtain ⟨o', ho', -, hf | hf⟩ := hpass.feeds feed o (Nat.ne_of_lt hlt) ho
    · exact ⟨hpass.stage.trans hs, o', ho', by rw [hf, hp]⟩
    · exact ⟨hpass.stage.trans hs, o', ho', by rw [hf, Feed.parked_close, hp]⟩
  | false =>
    cases hr with
    | @takeFeed g lane _ hf =>
      refine hon hf (fun og hog => ?_) fun x x' l ht hl => Feed.parked_take_of_ne ht hl
      exact Bool.not_eq_true _ ▸ fun hpg => hn ⟨g, lane, og, .inl rfl, hog, hpg⟩
    | @hangUpFeed g lane _ hf =>
      refine hon hf (fun og hog => ?_) fun x x' l hx hl => ?_
      · exact Bool.not_eq_true _ ▸ fun hpg => hn ⟨g, lane, og, .inr rfl, hog, hpg⟩
      · cases hx
        exact Feed.parked_hangUp_of_ne hl
    | jobReturned hs' hc => exact (hother hs' (by simp)).elim
    | @grant task hh hq =>
      cases task with
      | dispatcher =>
        simp only [enter]
        split
        · rename_i hs'
          exact (hother hs' (by simp)).elim
        · exact ⟨hs, o, ho, hp⟩
      | _ => cases ha
    | takeCommand ht => exact (hother (takeCommand_turn ht).1 (by simp)).elim
    | takeSignal hi ht => exact (hother (takeSignal_turn hi ht).1 (by simp)).elim
    | deliver hs' => exact (hother hs' (by simp)).elim
    | look hl =>
      unfold look? at hl
      split at hl
      · rename_i hs'
        exact (hother hs' (by simp)).elim
      · cases hl
    | unblock hu => simp [unblock?, hs, ho, hp] at hu
    | stop hm => exact (hother (Dispatcher.stage_of_mayStop hm) (by simp)).elim
    | _ => cases ha

theorem step (h : e.Stalls parcel feed rest) (hlt : feed < e.fresh) (hs : e.step event = some e')
    (hw : ¬e.Wakes event e') : e'.Stalls parcel feed rest := by
  obtain ⟨e₁, hr, -, ⟨-, rfl⟩ | ⟨hstart, -⟩⟩ := step_cases hs
  · exact h.reaction hlt hr fun hn => hw (.inl hn)
  · exact absurd (.inr hstart) hw

/-- As long as nothing wakes it, the dispatcher waits. -/
theorem run (h : e.Stalls parcel feed rest) (hlt : feed < e.fresh) {later : List Event}
    (hr : e.run later = some e') : e'.Stalls parcel feed rest ∨
      ∃ before event after x y, later = before ++ event :: after ∧ e.run before = some x ∧
        x.Stalls parcel feed rest ∧ x.step event = some y ∧ x.Wakes event y := by
  induction later generalizing e with
  | nil =>
    cases hr
    exact .inl h
  | cons event after ih =>
    obtain ⟨e₁, hs, hr⟩ := Option.bind_eq_some_iff.1 hr
    by_cases hw : e.Wakes event e₁
    · exact .inr ⟨[], event, after, e, e₁, rfl, rfl, h, hs, hw⟩
    · obtain hz | ⟨before, event', after', x, y, rfl, hx, hstalls, hy, hw'⟩ :=
        ih (h.step hlt hs hw) (Nat.lt_of_lt_of_le hlt (fresh_le_of_step hs)) hr
      · exact .inl hz
      · refine .inr ⟨event :: before, event', after', x, y, rfl, ?_, hstalls, hy, hw'⟩
        simp only [Engine.run, hs, Option.bind_some, hx]

theorem wake (h : e.Stalls parcel feed rest) (hlt : feed < e.fresh) (hs : e.step event = some e')
    (hw : e.Wakes event e') : e'.dispatcher.stage = .blocked parcel feed rest true := by
  obtain ⟨e₁, hr, -, he⟩ := step_cases hs
  by_cases hends : e.EndsSend event
  · have hon {g : FeedId} {lane : Lane} {f : Feed Update → Option (Feed Update)}
        (hf : e.onFeed? g lane f = some e₁)
        (hg : ∀ og, e.outlets.get? g = some og → og.feed.parked lane = true)
        (hend : ∀ x x', f x = some x' → x'.parked lane = false) :
        e₁.dispatcher.stage = .blocked parcel feed rest true := by
      obtain ⟨og, f', hog, hx, -, -, hd⟩ := onFeed_cases hf
      rw [hg og hog, hend _ _ hx, if_pos (by simp)] at hd
      rw [hd]
      exact Dispatcher.stage_rouse_of_blocked h.stage
    have h₁ : e₁.dispatcher.stage = .blocked parcel feed rest true := by
      obtain ⟨g, lane, o, rfl | rfl, ho, hp⟩ := hends
      · cases hr with
        | takeFeed hf =>
          refine hon hf (fun og hog => ?_) fun x x' ht => Feed.parked_take ht
          exact Option.some.inj (ho.symm.trans hog) ▸ hp
      · cases hr with
        | hangUpFeed hf =>
          refine hon hf (fun og hog => ?_) fun x x' hx => ?_
          · exact Option.some.inj (ho.symm.trans hog) ▸ hp
          · cases hx
            exact x.parked_hangUp lane
    obtain ⟨-, rfl⟩ | ⟨-, rfl⟩ := he
    · exact h₁
    · exact Dispatcher.stage_rouse_of_blocked h₁
  · obtain ⟨hn, -⟩ | ⟨-, rfl⟩ := he
    · exact absurd (hw.resolve_left hends) (by simp [hn])
    · exact Dispatcher.stage_rouse_of_blocked (h.reaction hlt hr hends).stage

end Stalls

theorem Paced.next (h : e.Paced) (hs : e.dispatcher.stage = .blocked parcel feed rest roused) :
    e.next? .dispatcher = e.nextOfDispatcher? := by
  have h0 := List.count_eq_zero.1 (h.count_of_not_collecting (by rw [hs]; rfl))
  have hn : e.queue.contains .dispatcher = false := by simpa using h0
  simp only [next?, hn, Bool.false_eq_true, if_false]

theorem stalls_of_atRest (h : e.Paced) (hrest : e.AtRest)
    (hs : e.dispatcher.stage = .blocked parcel feed rest roused) : e.Stalls parcel feed rest := by
  have hn := hrest .dispatcher
  rw [h.next hs] at hn
  obtain ⟨-, o, ho, -⟩ := h.waits parcel feed rest roused hs
  cases hp : o.feed.parked parcel.lane with
  | false => simp [nextOfDispatcher?, unblock?, hs, ho, hp] at hn
  | true =>
    cases roused with
    | true => simp [nextOfDispatcher?, unblock?, hs, ho, hp] at hn
    | false => exact ⟨hs, o, ho, hp⟩

/-- The dispatcher goes on by itself to the feeds that are left. -/
def GoesOn (e : Engine) (parcel : Parcel Update) (rest : List FeedId) : Prop :=
  ∃ event e', e.next? .dispatcher = some event ∧ e.step event = some e' ∧
    e'.dispatcher.stage = .sending parcel rest

theorem goesOn_of_react (event : Event) (hn : e.next? .dispatcher = some event)
    (h : e.react event = some e') (hs : e'.dispatcher.stage = .sending parcel rest) :
    e.GoesOn parcel rest := by
  refine ⟨event, _, hn, congrArg (Option.map _) h, ?_⟩
  dsimp only
  split
  · exact Dispatcher.stage_rouse_of_sending hs
  · exact hs

theorem Paced.goesOn (h : e.Paced) (hs : e.dispatcher.stage = .blocked parcel feed rest true)
    (ho : e.outlets.get? feed = some o)
    (hc : o.feed.parked parcel.lane = false ∨ o.feed.IsClosed) : e.GoesOn parcel rest := by
  have hn := h.next hs
  cases hp : o.feed.parked parcel.lane with
  | false =>
    have hu : e.unblock? = some { e with dispatcher := { e.dispatcher with
        stage := .sending parcel rest } } := by
      simp [unblock?, hs, ho, hp]
    refine goesOn_of_react .unblock ?_ hu rfl
    simp [hn, nextOfDispatcher?, hs, hu]
  | true =>
    have hclosed := (hc.resolve_left (by simp [hp])).accepts parcel.lane
    have hu : e.unblock? = none := by simp [unblock?, hs, ho, hp]
    have hl : e.look? = some { e with dispatcher := { e.dispatcher with
        stage := .sending parcel rest } } := by
      simp [look?, hs, ho, hclosed]
    refine goesOn_of_react .look ?_ hl rfl
    simp [hn, nextOfDispatcher?, hs, hu]

/-- The consumer can always end the wait. -/
theorem Stalls.release (hopens : e.Opens) (hpaced : e.Paced) (h : e.Stalls parcel feed rest)
    (he : event = .take (.feed feed) parcel.lane ∨ event = .hangUp (.feed feed) parcel.lane) :
    ∃ e', e.step event = some e' ∧ e'.GoesOn parcel rest := by
  obtain ⟨hs, o, ho, hp⟩ := id h
  obtain ⟨hlt, o', ho', hrightly⟩ := hpaced.waits parcel feed rest false hs
  cases Option.some.inj (ho.symm.trans ho')
  have hends : e.EndsSend event := ⟨feed, parcel.lane, o, he, ho, hp⟩
  have hon {f : Feed Update → Option (Feed Update)} {f' : Feed Update}
      (hreact : e.react event = e.onFeed? feed parcel.lane f) (hf : f o.feed = some f')
      (hfree : f'.parked parcel.lane = false) :
      ∃ e', e.step event = some e' ∧ e'.GoesOn parcel rest := by
    obtain ⟨e₁, h₁⟩ : ∃ e₁, e.react event = some e₁ := by
      simp [hreact, onFeed?, ho, hf]
    obtain ⟨e', hstep⟩ : ∃ e', e.step event = some e' := by
      simp [Engine.step, h₁]
    refine ⟨e', hstep, ?_⟩
    have hout : e'.outlets.get? feed = some { o with feed := f' } := by
      obtain ⟨e₂, h₂, hr⟩ := Option.map_eq_some_iff.1 hstep
      rw [hreact] at h₂
      obtain ⟨og, f'', hog, hf'', hout, -, -⟩ := onFeed_cases h₂
      cases Option.some.inj (ho.symm.trans hog)
      cases Option.some.inj (hf.symm.trans hf'')
      have hsame : e'.outlets = e₂.outlets := by
        rw [← hr]
        split <;> rfl
      rw [hsame, hout, Table.get?_put_self]
    exact (hpaced.step hopens hstep).goesOn (h.wake hlt hstep (.inl hends)) hout (.inl hfree)
  obtain rfl | rfl := he
  · obtain ⟨f', ht⟩ := Feed.take_of_isOverfull (hrightly hp)
    exact hon (f := fun f => f.take? parcel.lane) rfl ht (Feed.parked_take ht)
  · exact hon (f := fun f => some (f.hangUp parcel.lane)) rfl rfl (o.feed.parked_hangUp _)

theorem Stalls.goesOn_of_ended (hopens : e.Opens) (hpaced : e.Paced)
    (h : e.Stalls parcel feed rest) (hend : e.Ended feed) (hs : e.step event = some e')
    (hw : e.Wakes event e') : e'.GoesOn parcel rest := by
  obtain ⟨o, ho, hclosed⟩ := hend.shut
  obtain ⟨o', ho', -, hstays⟩ := stays_of_step Feed.lasting_isClosed hs hend.lt ho
  exact (hpaced.step hopens hs).goesOn (h.wake hend.lt hs hw) ho' (.inr (hstays hclosed))

/-- The dispatcher is the same, and can still be sent commands if it could be. -/
structure Hushes (e e' : Engine) : Prop where
  dispatcher : e'.dispatcher = e.dispatcher
  reachable : e.reachable = true → e'.reachable = true

namespace Hushes

variable {e'' : Engine}

theorem startles (h : Hushes e e') : e.startles e' = false := by
  rw [Engine.startles, h.dispatcher]
  cases hr : e.reachable with
  | true => simp [h.reachable hr]
  | false => simp

theorem of_eq (hd : e'.dispatcher = e.dispatcher) (hr : e'.reachable = e.reachable) :
    Hushes e e' := ⟨hd, fun h => hr.trans h⟩

theorem refl (e : Engine) : Hushes e e := of_eq rfl rfl

theorem trans (h : Hushes e e') (h' : Hushes e' e'') : Hushes e e'' :=
  ⟨h'.dispatcher.trans h.dispatcher, h'.reachable ∘ h.reachable⟩

/-- Who has an answer still has a handle. -/
theorem answer (e : Engine) (id : CallerId) (a : Answer) : Hushes e (e.answer id a) := by
  refine ⟨dispatcher_answer e id a, fun h => ?_⟩
  unfold Engine.answer
  split
  · simp [Engine.reachable, note]
  · exact h

theorem await (e : Engine) (id : CallerId) (w : Wait) : Hushes e (e.await id w) := by
  refine ⟨rfl, fun _ => ?_⟩
  have hsize : (e.callers.put id w).size ≠ 0 := by
    have hm := Table.get?_eq_some_iff.1 (Table.get?_put_self e.callers id w)
    exact Nat.ne_of_gt (List.length_pos_of_mem hm)
  simp [Engine.reachable, Engine.await, hsize]

theorem keptByOperations : KeptByOperations Hushes where
  refl := refl
  trans := trans
  register _ _ := of_eq rfl rfl
  hold _ _ := of_eq rfl rfl
  operated _ _ _ := of_eq rfl rfl
  asked _ _ := of_eq rfl rfl
  answer := answer
  await := await
  enlist _ _ _ := of_eq rfl rfl
  setWatch _ _ _ := of_eq rfl rfl
  closeFeed _ _ := of_eq rfl rfl

end Hushes

theorem not_wakes_of_ends {g : FeedId} (he : e.Ends g event) (hs : e.step event = some e') :
    ¬e.Wakes event e' := by
  obtain ⟨task, op, rfl, hi, -⟩ := he
  obtain ⟨e₁, hr, hstart, -⟩ := step_cases hs
  have hquiet : e.startles e₁ = false := by
    cases hr with
    | grant hh hq =>
      have hix : { e with queue := e.queue.erase task }.Intends task op := hi
      have hx : Hushes e { e with queue := e.queue.erase task } := .of_eq rfl rfl
      rw [enter_of_intends hix]
      exact (hx.trans (Hushes.keptByOperations.operate _ task op)).startles
  rintro (⟨f, lane, o, h | h, -⟩ | hw)
  · cases h
  · cases h
  · rw [hstart, hquiet] at hw
    cases hw

/-- Where no task can go on by itself and the dispatcher waits for room on a lane, the lane has a
listener and more on it than its capacity. The end of the subscription leaves the dispatcher
waiting, and so does everything else until the consumer ends the wait, which it can at once, or the
dispatcher is woken over something else; if the subscription has ended it then goes on. -/
theorem Reachable.stalls (h : e.Reachable) (parcel : Parcel Update) (feed : FeedId)
    (rest : List FeedId) :
    (e.AtRest → ∀ roused, e.dispatcher.stage = .blocked parcel feed rest roused →
      e.Stalls parcel feed rest) ∧
    (e.Stalls parcel feed rest →
      (∃ o, e.outlets.get? feed = some o ∧ o.feed.IsOverfull parcel.lane) ∧
      (∀ event e', e.Ends feed event → e.step event = some e' →
        e'.Ended feed ∧ e'.Stalls parcel feed rest) ∧
      (∀ later z, e.run later = some z → z.Stalls parcel feed rest ∨
        ∃ before event after x y, later = before ++ event :: after ∧ e.run before = some x ∧
          x.Stalls parcel feed rest ∧ x.step event = some y ∧ x.Wakes event y) ∧
      (∀ event, event = .take (.feed feed) parcel.lane ∨ event = .hangUp (.feed feed) parcel.lane →
        ∃ e', e.step event = some e' ∧ e'.GoesOn parcel rest) ∧
      (e.Ended feed → ∀ event e', e.step event = some e' → e.Wakes event e' →
        e'.GoesOn parcel rest)) := by
  refine ⟨fun hrest roused hs => stalls_of_atRest h.paced hrest hs, fun hstalls => ?_⟩
  obtain ⟨hlt, o, ho, hrightly⟩ := h.paced.waits parcel feed rest false hstalls.stage
  obtain ⟨o', ho', hp⟩ := hstalls.parked
  cases Option.some.inj (ho.symm.trans ho')
  refine ⟨⟨o, ho, hrightly hp⟩, fun event e' he hs => ⟨ended_of_ends h.attained h.opens hs he, ?_⟩,
    fun later z => hstalls.run hlt, fun event => hstalls.release h.opens h.paced,
    fun hend event e' => hstalls.goesOn_of_ended h.opens h.paced hend⟩
  exact hstalls.step hlt hs (not_wakes_of_ends he hs)

theorem atRest_iff : e.AtRest ↔
    ((.dispatcher :: e.queue ++ e.clients).all fun task => (e.next? task).isNone) = true := by
  simp only [List.all_eq_true, Option.isNone_iff_eq_none]
  refine ⟨fun h task _ => h task, fun h task => ?_⟩
  by_cases hm : task ∈ .dispatcher :: e.queue ++ e.clients
  · exact h task hm
  · simp only [List.cons_append, List.mem_cons, List.mem_append, not_or] at hm
    obtain ⟨hd, hq, hc⟩ := hm
    have hqueue : e.queue.contains task = false := by simpa using hq
    simp only [next?, hqueue, Bool.false_eq_true, if_false]
    have hnone {α : Type} {t : Table Nat α} {id : Nat} (hk : id ∉ t.keys) : t.get? id = none := by
      have hk := mt (Table.contains_iff_mem_keys t id).1 hk
      exact Table.contains_eq_false_iff.1 (Bool.not_eq_true _ ▸ hk)
    cases task with
    | dispatcher => exact absurd rfl hd
    | watcher feed => rfl
    | caller id =>
      have hid : id ∉ e.callers.keys ∧ id ∉ e.leaving := by simpa [clients] using hc
      simp [nextOfCaller?, expire?, hid.2, hnone hid.1]
    | poller id =>
      have hid : id ∉ e.pollers.keys := by simpa [clients] using hc
      simp [nextOfPoller?, stepPoller?, hnone hid]

/-- A sink without a buffer stalls the dispatcher, which has the end of a job to take next. Then the
sink is cancelled. -/
def stalling : List Event :=
  [.openSet, .call (.add 0 "a.service"), .grant (.caller 1), .matchReturned (.ok ()), .leave 1,
    .call (.attach 0 0 4 none), .grant (.caller 2), .leave 2,
    .call (.submit ⟨"StartUnit", ["b.service", "replace"]⟩ none), .takeCommand,
    .jobReturned (.ok "/job/1"), .signal (.ok (.unitNew "a.service" "/a")),
    .signal (.ok (.jobRemoved 1 "/job/1" "b.service" "done")), .takeSignal, .grant .dispatcher,
    .deliver, .cancel 2]

/-- The watcher takes the sink out of the registry, the bus answers, and nothing goes on. -/
theorem Reachable.stalls_stalling :
    ∃ x y e, (start 1 .exact).run stalling = some x ∧ x.step (.grant (.watcher 2)) = some y ∧
      y.Ended 2 ∧ (∃ parcel, y.Stalls parcel 2 []) ∧ y.step (.matchReturned (.ok ())) = some e ∧
      e.AtRest ∧ (∃ parcel, e.Stalls parcel 2 []) ∧ ¬e.registry.Serves 2 ∧
      (∃ w, e.callers.get? 3 = some w) ∧ e.dispatcher.signals.length = 1 := by
  obtain ⟨x, hx, hstage, ⟨o, ho, hparked⟩, hends, y, hy, e, he, hrest, hblocked, hw, hsignals⟩ :
      ∃ x, (start 1 .exact).run stalling = some x ∧
        x.dispatcher.stage.standstill? = some (.values, 2, [], false) ∧
        (∃ o, x.outlets.get? 2 = some o ∧ o.feed.parked .values = true) ∧
        x.Ends 2 (.grant (.watcher 2)) ∧
        ∃ y, x.step (.grant (.watcher 2)) = some y ∧
          ∃ e, y.step (.matchReturned (.ok ())) = some e ∧
            ((.dispatcher :: e.queue ++ e.clients).all fun task => (e.next? task).isNone) = true ∧
            e.dispatcher.stage.standstill? = some (.values, 2, [], false) ∧
            (∃ w, e.callers.get? 3 = some w) ∧ e.dispatcher.signals.length = 1 :=
    ⟨((start 1 .exact).run stalling).get (by decide +kernel), (Option.some_get _).symm,
      by decide +kernel, (Option.any_eq_true _ _).1 (by decide +kernel), by decide +kernel,
      Option.get _ (by decide +kernel), (Option.some_get _).symm,
      Option.get _ (by decide +kernel), (Option.some_get _).symm, by decide +kernel,
      by decide +kernel, Option.isSome_iff_exists.1 (by decide +kernel), by decide +kernel⟩
  have hxr : x.Reachable := ⟨1, .exact, stalling, hx⟩
  have hyr := hxr.step hy
  obtain ⟨hend, hstalls⟩ : y.Ended 2 ∧ ∃ parcel, y.Stalls parcel 2 [] := by
    obtain ⟨parcel, hs, hlane⟩ := Stage.standstill?_eq_some_iff.1 hstage
    obtain ⟨-, hcloses, -⟩ :=
      (Reachable.stalls hxr parcel 2 []).2 ⟨hs, o, ho, hlane ▸ hparked⟩
    obtain ⟨hend, hstalls⟩ := hcloses _ y hends hy
    exact ⟨hend, parcel, hstalls⟩
  have hstill : ∃ parcel, e.Stalls parcel 2 [] := by
    obtain ⟨parcel, hs, -⟩ := Stage.standstill?_eq_some_iff.1 hblocked
    exact ⟨parcel, (Reachable.stalls (hyr.step he) parcel 2 []).1 (atRest_iff.2 hrest) false hs⟩
  exact ⟨x, y, e, hx, hy, hend, hstalls, he, atRest_iff.2 hrest, hstill,
    fun hs => (hend.step hyr.attained he).unconcerned (.inl hs), hw, hsignals⟩

end Engine

end UnitControl
