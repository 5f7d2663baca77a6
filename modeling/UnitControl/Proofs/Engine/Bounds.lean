import UnitControl.Proofs.Engine.Polling
import UnitControl.Proofs.Engine.Stall
import UnitControl.Proofs.Poller.Bounds

/-!
# What consumers leave behind

The dispatcher sends to the next feed only when the send before is over, or when the channel takes
nothing any more. So whatever the consumers do, no channel of a subscription has more than one
message too many.
-/

namespace UnitControl

def Stage.waitsOn? : Stage → Option (FeedId × Lane)
  | blocked parcel feed _ _ => some (feed, parcel.lane)
  | _ => none

theorem Dispatcher.waitsOn?_rouse (d : Dispatcher) : d.rouse.stage.waitsOn? = d.stage.waitsOn? := by
  unfold rouse
  split
  · rename_i hs
    rw [hs]
    rfl
  · rfl

namespace Engine

variable {e e' : Engine} {event : Event} {feed : FeedId} {room : Lane → Nat}

/-- The feed has these capacities, and the dispatcher waits where there is a message too many. -/
def Bounded (e : Engine) (feed : FeedId) (room : Lane → Nat) : Prop :=
  ∃ o, e.outlets.get? feed = some o ∧ (∀ lane, o.feed.capacity lane = room lane) ∧
    o.feed.Bounded fun lane => e.dispatcher.stage.waitsOn? = some (feed, lane)

namespace Bounded

theorem rouse (h : e.Bounded feed room) :
    { e with dispatcher := e.dispatcher.rouse }.Bounded feed room := by
  obtain ⟨o, ho, hc, hb⟩ := h
  exact ⟨o, ho, hc, hb.mono fun _ _ _ hw => (Dispatcher.waitsOn?_rouse _).trans hw⟩

theorem elsewhere (h : e.Bounded feed room) (hs : e.dispatcher.stage.waitsOn? = none)
    (ho : e'.outlets = e.outlets) : e'.Bounded feed room := by
  obtain ⟨o, hget, hc, hb⟩ := h
  refine ⟨o, ho ▸ hget, hc, hb.elsewhere fun lane hw => ?_⟩
  rw [hs] at hw
  cases hw

theorem passesBy (h : e.Bounded feed room) {new : FeedId} (hp : PassesBy new e e')
    (hne : feed ≠ new) : e'.Bounded feed room := by
  obtain ⟨o, ho, hc, hb⟩ := h
  obtain ⟨o', ho', -, hf⟩ := hp.feeds feed o hne ho
  rw [Bounded, hp.stage]
  obtain hf | hf := hf
  · exact ⟨o', ho', hf ▸ hc, hf ▸ hb⟩
  · exact ⟨o', ho', hf ▸ (Feed.lasting_capacity room).close _ hc, hf ▸ hb.close⟩

theorem abandon (h : e.Bounded feed room) (g : Option FeedId) :
    (e.abandon g).Bounded feed room :=
  h.passesBy ((PassesBy.keptByOperations (feed + 1)).abandon e g)
    (Nat.ne_of_lt (Nat.lt_succ_self _))

theorem onFeed {g : FeedId} {lane : Lane} {f : Feed Update → Option (Feed Update)}
    (h : e.Bounded feed room) (hf : e.onFeed? g lane f = some e')
    (hc : ∀ x x', f x = some x' → (∀ lane, x.capacity lane = room lane) →
      ∀ lane, x'.capacity lane = room lane)
    (hb : ∀ x x' waits, f x = some x' → x.Bounded waits → x'.Bounded waits) :
    e'.Bounded feed room := by
  obtain ⟨o, ho, hcap, hbound⟩ := h
  obtain ⟨og, f', hog, hx, hout, -, hd⟩ := onFeed_cases hf
  have hw : e'.dispatcher.stage.waitsOn? = e.dispatcher.stage.waitsOn? := by
    rw [hd]
    split
    · exact e.dispatcher.waitsOn?_rouse
    · rfl
  rw [Bounded, hw, hout, Table.get?_put]
  split
  · rename_i hfg
    subst hfg
    cases Option.some.inj (ho.symm.trans hog)
    exact ⟨_, rfl, hc _ _ hx hcap, hb _ _ _ hx hbound⟩
  · exact ⟨o, ho, hcap, hbound⟩

theorem deliver (h : e.Bounded feed room) {parcel : Parcel Update} {targets : List FeedId}
    (hs : e.dispatcher.stage = .sending parcel targets) :
    (e.deliver parcel targets).Bounded feed room := by
  have hnone : e.dispatcher.stage.waitsOn? = none := by rw [hs]; rfl
  cases targets with
  | nil => exact h.elsewhere hnone rfl
  | cons g rest =>
    cases hg : e.outlets.get? g with
    | none =>
      simp only [Engine.deliver, hg]
      exact h.elsewhere hnone rfl
    | some og =>
      simp only [Engine.deliver, hg]
      split
      · obtain ⟨o, ho, hc, hb⟩ := h
        have hwait : ∀ lane, e.dispatcher.stage.waitsOn? ≠ some (feed, lane) := by simp [hnone]
        simp only [Bounded, note, Table.get?_put]
        split
        · rename_i hfg
          subst hfg
          cases Option.some.inj (ho.symm.trans hg)
          refine ⟨_, rfl, fun lane => (Feed.capacity_send _ parcel lane).trans (hc lane),
            hb.send hwait parcel fun hp => ?_⟩
          rw [if_pos hp]
          rfl
        · exact ⟨o, ho, hc, hb.elsewhere hwait⟩
      · exact h.elsewhere hnone rfl

theorem look (h : e.Bounded feed room) (hl : e.look? = some e') : e'.Bounded feed room := by
  unfold look? at hl
  split at hl
  · rename_i parcel g rest hs
    cases hl
    obtain ⟨o, ho, hc, hb⟩ := h
    refine ⟨o, ho, hc, hb.mono fun lane ha _ hw => ?_⟩
    rw [hs] at hw
    cases hw
    simp [ho, ha, Stage.waitsOn?]
  · cases hl

theorem unblock (h : e.Bounded feed room) (hu : e.unblock? = some e') : e'.Bounded feed room := by
  unfold unblock? at hu
  split at hu
  · rename_i parcel g rest b hs
    split at hu
    · cases hu
    · rename_i hroom
      cases hu
      obtain ⟨o, ho, hc, hb⟩ := h
      refine ⟨o, ho, hc, hb.mono fun lane _ hp hw => ?_⟩
      rw [hs] at hw
      cases hw
      simp [ho, hp] at hroom
  · cases hu

theorem reaction (h : e.Bounded feed room) (hlt : feed < e.fresh) (hr : e.Reaction event e') :
    e'.Bounded feed room := by
  have hidle {s : Stage} (hs : e.dispatcher.stage = s) (hn : s.waitsOn? = none) :
      e.dispatcher.stage.waitsOn? = none := hs ▸ hn
  cases ha : event.isAside with
  | true => exact h.passesBy (passesBy_of_reaction hr ha) (Nat.ne_of_lt hlt)
  | false =>
    cases hr with
    | takeFeed hf =>
      exact h.onFeed hf (fun x x' hx hc => (Feed.lasting_capacity room).take x _ x' hc hx)
        fun x x' waits hx hb => hb.take hx
    | hangUpFeed hf =>
      refine h.onFeed hf (fun x x' hx hc => ?_) fun x x' waits hx hb => ?_
      · cases hx
        exact (Feed.lasting_capacity room).hangUp x _ hc
      · cases hx
        exact hb.hangUp _
    | jobReturned hs hc => exact h.elsewhere (hidle hs rfl) (outlets_dispatch _ _)
    | @grant task hh hq =>
      cases task with
      | dispatcher =>
        simp only [enter]
        split
        · rename_i hs
          exact h.elsewhere (hidle hs rfl) rfl
        · exact h
      | _ => cases ha
    | takeCommand ht =>
      exact h.elsewhere (hidle (takeCommand_turn ht).1 rfl)
        ((outlets_noteCall _).trans (outlets_dispatch _ _))
    | takeSignal hi ht =>
      exact h.elsewhere (hidle (takeSignal_turn hi ht).1 rfl)
        ((outlets_askTargets _).trans (outlets_dispatch _ _))
    | deliver hs => exact h.deliver hs
    | look hl => exact h.look hl
    | unblock hu => exact h.unblock hu
    | stop hm =>
      exact h.elsewhere (hidle (Dispatcher.stage_of_mayStop hm) rfl) (outlets_dispatch _ _)
    | _ => cases ha

theorem step (h : e.Bounded feed room) (hlt : feed < e.fresh) (hs : e.step event = some e') :
    e'.Bounded feed room :=
  of_step hs (fun _ hr => h.reaction hlt hr) fun _ => rouse

theorem run (h : e.Bounded feed room) (hlt : feed < e.fresh) {events : List Event}
    (hr : e.run events = some e') : e'.Bounded feed room :=
  (run_keeps (P := fun x => feed < x.fresh ∧ x.Bounded feed room)
    (fun ⟨hlt, h⟩ hs => ⟨Nat.lt_of_lt_of_le hlt (fresh_le_of_step hs), h.step hlt hs⟩)
    ⟨hlt, h⟩ hr).2

end Bounded

def atSource? {β : Type} (e : Engine) (look : {α : Type} → Feed α → β) : Source → Option β
  | .feed id => (e.outlets.get? id).map fun o => look o.feed
  | .poller id => (e.pollers.get? id).map fun p => look p.feed

/-- How many messages wait on a lane for a consumer to take them. -/
def backlog? (e : Engine) (source : Source) (lane : Lane) : Option Nat :=
  e.atSource? (fun f => (f.queued lane).length) source

def accepts? (e : Engine) (source : Source) (lane : Lane) : Option Bool :=
  e.atSource? (fun f => f.accepts lane) source

/-- The task that sends to a source waits for room on the lane. -/
def WaitsAt (e : Engine) : Source → Lane → Prop
  | .feed id, lane => e.dispatcher.stage.waitsOn? = some (id, lane)
  | .poller id, lane => (e.pollers.get? id).map Poller.stage = some (.blocked lane)

/-- The event makes a new source, whose channels have these capacities. -/
inductive Creates (e : Engine) : Event → Source → (Lane → Nat) → Prop
  | attach (s : SetId) (values faults : Nat) (refusal : Option String) :
      Creates e (.call (.attach s values faults refusal)) (.feed e.fresh) fun
        | .values => values
        | .faults => faults
  | subscribe (unit : String) (values : Nat) (refusal : Option String) :
      Creates e (.call (.subscribe unit values refusal)) (.feed e.fresh) fun
        | .values => values
        | .faults => 0
  | poll (interval : Duration) (capacity : Nat) (isChanged : UnitStatus → UnitStatus → Bool)
      (scope : Scope) :
      Creates e (.poll interval capacity isChanged scope) (.poller e.fresh) fun _ => capacity

variable {e₀ e₁ : Engine} {events : List Event} {source : Source}

theorem bounded_of_new {o : Outlet} (ho : e.outlets.get? feed = some o)
    (hf : o.feed = .ofCapacities (room .values) (room .faults)) : e.Bounded feed room := by
  refine ⟨o, ho, fun lane => ?_, hf ▸ Feed.bounded_ofCapacities _ _⟩
  rw [hf]
  cases lane <;> rfl

/-- A feed that is new is bounded, also if it is closed at once over a name that is none. -/
theorem bounded_of_creates (hc : e₀.Creates event (.feed feed) room)
    (hs : e₀.step event = some e₁) : feed < e₁.fresh ∧ e₁.Bounded feed room := by
  refine of_step hs (fun x hr => ?_) fun x hx => ⟨hx.1, hx.2.rouse⟩
  cases hr with
  | call hp =>
    cases hc with
    | attach s values faults refusal =>
      exact ⟨Nat.lt_succ_self _, bounded_of_new (Table.get?_put_self _ _ _) rfl⟩
    | subscribe unit values refusal =>
      let opened :=
        { e₀ with fresh := e₀.fresh + 1 }.openFeed e₀.fresh values 0 (.unsubscribe e₀.fresh)
      have hopened {room : Lane → Nat} (hv : room .values = values) (hf : room .faults = 0) :
          opened.Bounded e₀.fresh room :=
        bounded_of_new (Table.get?_put_self _ _ _) (by rw [hv, hf])
      simp only [Engine.call]
      split
      · exact ⟨Nat.lt_succ_self _, hopened rfl rfl⟩
      · exact ⟨Nat.lt_succ_self _, (hopened rfl rfl).abandon (some e₀.fresh)⟩
  | _ => cases hc

/-- However consumers take messages or go away, a channel that a subscription has made with some
capacity holds one message more at most. It holds that message only as long as the task that sends
on it waits there, or after it was closed. -/
theorem run_bounds_backlog {room : Lane → Nat} (hc : e₀.Creates event source room)
    (hs : e₀.step event = some e₁) (hr : e₁.run events = some e) (lane : Lane) :
    ∃ n, e.backlog? source lane = some n ∧ n ≤ room lane + 1 ∧
      (room lane < n → e.accepts? source lane = some true → e.WaitsAt source lane) := by
  cases source with
  | feed id =>
    obtain ⟨hlt, hb⟩ := bounded_of_creates hc hs
    obtain ⟨o, ho, hcap, hb⟩ := hb.run hlt hr
    have hlen := hb.length_queued_le lane
    refine ⟨_, by simp only [backlog?, atSource?, ho, Option.map_some], hcap lane ▸ hlen,
      fun hroom ha => ?_⟩
    simp only [accepts?, atSource?, ho, Option.map_some] at ha
    exact hb.waits_of_lt (Option.some.inj ha) (hcap lane ▸ hroom)
  | poller id =>
    cases hc with
    | poll interval capacity isChanged scope =>
      obtain ⟨hstart, hlt⟩ := poller_of_poll hs
      obtain ⟨p, hp, hrun⟩ := poller_run hr hstart hlt
      have hb := (Poller.Bounded.start interval capacity isChanged scope).run hrun
      have hcap : ∀ lane, p.feed.capacity lane = capacity :=
        Poller.enduring_run (Feed.lasting_capacity fun _ => capacity).enduring hrun
          fun lane => by cases lane <;> rfl
      have hlen := hb.length_queued_le lane
      refine ⟨_, by simp only [backlog?, atSource?, hp, Option.map_some], hcap lane ▸ hlen,
        fun hroom ha => ?_⟩
      simp only [accepts?, atSource?, hp, Option.map_some] at ha
      rw [WaitsAt, hp, Option.map_some]
      exact congrArg some (hb.waits_of_lt (Option.some.inj ha) (hcap lane ▸ hroom))

/-- The sink of a set has room for one update, and gets three that nobody takes. -/
def flooded : List Event :=
  [.grant (.caller 2), .signal (.ok (.unitNew "a.service" "/a")),
    .signal (.ok (.unitNew "a.service" "/a")), .signal (.ok (.unitNew "a.service" "/a")),
    .takeSignal, .grant .dispatcher, .deliver, .deliver, .takeSignal, .grant .dispatcher, .deliver]

theorem run_bounds_backlog_flooded :
    ∃ e₀ e₁ e, (start 1 .exact).run watched = some e₀ ∧
      e₀.step (.call (.attach 0 1 4 none)) = some e₁ ∧ e₁.run flooded = some e ∧
      e.backlog? (.feed e₀.fresh) .values = some 2 ∧ e.WaitsAt (.feed e₀.fresh) .values := by
  let e₀ := ((start 1 .exact).run watched).get (by decide +kernel)
  let e₁ := (e₀.step (.call (.attach 0 1 4 none))).get (by decide +kernel)
  let e := (e₁.run flooded).get (by decide +kernel)
  have hs : e₀.step (.call (.attach 0 1 4 none)) = some e₁ := (Option.some_get _).symm
  have hr : e₁.run flooded = some e := (Option.some_get _).symm
  have hbacklog : e.backlog? (.feed e₀.fresh) .values = some 2 := by decide +kernel
  obtain ⟨n, hn, -, hwaits⟩ := run_bounds_backlog (.attach 0 1 4 none) hs hr .values
  cases Option.some.inj (hbacklog.symm.trans hn)
  exact ⟨e₀, e₁, e, (Option.some_get _).symm, hs, hr, hbacklog,
    hwaits (by decide) (by decide +kernel)⟩

end Engine

end UnitControl
