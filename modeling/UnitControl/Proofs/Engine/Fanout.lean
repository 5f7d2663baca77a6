import Mathlib.Data.List.Induction
import UnitControl.Proofs.Engine.Rounds

/-!
# The fan-out of signals

A run of the engine is a sequence of rounds, and what a consumer finds on a channel are the parcels
that the channel took in its turns, in the order of the rounds.
-/

namespace UnitControl

open Engine

structure Chronicle (capacity : Nat) (timer : Timer) (events : List Event) (m : Mail)
    (rounds : List Round) : Prop extends Annals capacity timer events rounds where
  stands : Stands m.position rounds
  arrivals : rounds.map Round.item ++ m.signals <+: events.filterMap Event.arrival?
  awaited : m.position ≠ .stopped →
    rounds.map Round.item ++ m.signals = events.filterMap Event.arrival?
  lanes : ∀ feed lane, Ledger (m.deaf feed lane) (m.queued feed lane)
    (rounds.filterMap (Round.gift? feed lane)) (picks feed lane (start capacity timer) events)

variable {capacity : Nat} {timer : Timer} {events : List Event} {event : Event} {e : Engine}

namespace Chronicle

variable {rounds rounds' : List Round} {m : Mail}

theorem start (capacity : Nat) (timer : Timer) :
    Chronicle capacity timer [] (Engine.start capacity timer).mail [] where
  ordered := List.Pairwise.nil
  past n hn := by cases hn
  sound round hr := by cases hr
  stands round hr := by cases hr
  arrivals := List.prefix_rfl
  awaited _ := rfl
  lanes feed lane := ⟨fun _ => rfl, fun hd => (by cases hd), List.prefix_rfl⟩

theorem lanes_keep (hrun : (Engine.start capacity timer).run events = some e)
    (h : Chronicle capacity timer events e.mail rounds) (hp : event.pickup? = none)
    (hl : ∀ feed lane, m.queued feed lane = e.mail.queued feed lane ∧
      m.deaf feed lane = e.mail.deaf feed lane)
    (hg : ∀ feed lane, rounds'.filterMap (Round.gift? feed lane) =
      rounds.filterMap (Round.gift? feed lane)) (feed : FeedId) (lane : Lane) :
    Ledger (m.deaf feed lane) (m.queued feed lane) (rounds'.filterMap (Round.gift? feed lane))
      (picks feed lane (Engine.start capacity timer) (events ++ [event])) := by
  have hn : e.pick? feed lane event = none := by simp [pick?, hp]
  rw [picks_append_singleton hrun, hn, Option.toList_none, List.append_nil, hg, (hl feed lane).1,
    (hl feed lane).2]
  exact h.lanes feed lane

theorem keep (h : Chronicle capacity timer events e.mail rounds) (ha : event.arrival? = none)
    (hpos : m.position = e.mail.position) (hsig : m.signals = e.mail.signals)
    (hl : ∀ feed lane, Ledger (m.deaf feed lane) (m.queued feed lane)
      (rounds.filterMap (Round.gift? feed lane))
      (picks feed lane (Engine.start capacity timer) (events ++ [event]))) :
    Chronicle capacity timer (events ++ [event]) m rounds where
  toAnnals := h.toAnnals.append event
  stands := hpos ▸ h.stands
  arrivals := by
    rw [filterMap_arrival_append ha, hsig]
    exact h.arrivals
  awaited hn := by
    rw [filterMap_arrival_append ha, hsig]
    exact h.awaited (hpos ▸ hn)
  lanes := hl

theorem advance (h : Chronicle capacity timer events e.mail rounds) (ha : event.arrival? = none)
    (hp : e.mail.position ≠ .stopped) (hann : Annals capacity timer (events ++ [event]) rounds')
    (hst : Stands m.position rounds')
    (hi : rounds'.map Round.item ++ m.signals = rounds.map Round.item ++ e.mail.signals)
    (hl : ∀ feed lane, Ledger (m.deaf feed lane) (m.queued feed lane)
      (rounds'.filterMap (Round.gift? feed lane))
      (picks feed lane (Engine.start capacity timer) (events ++ [event]))) :
    Chronicle capacity timer (events ++ [event]) m rounds' := by
  have harr : rounds'.map Round.item ++ m.signals =
      (events ++ [event]).filterMap Event.arrival? := by
    rw [filterMap_arrival_append ha, hi, h.awaited hp]
  exact ⟨hann, hst, harr ▸ List.prefix_rfl, fun _ => harr, hl⟩

theorem takeSignal (hrun : (Engine.start capacity timer).run events = some e)
    (h : Chronicle capacity timer events e.mail rounds) {item : Except Error Signal}
    {rest : List (Except Error Signal)} (hs : e.dispatcher.stage = .idle)
    (hi : e.dispatcher.signals = item :: rest) :
    Chronicle capacity timer (events ++ [.takeSignal])
      { e.mail with signals := rest, position := .after item }
      (rounds ++ [⟨item, events.length, none⟩]) := by
  have hcomplete : ∀ round ∈ rounds, round.Complete := by
    have hst := h.stands
    rwa [position_idle hs] at hst
  have hsignals : e.mail.signals = item :: rest := hi
  refine h.advance rfl (by simp [position_idle hs])
    (h.toAnnals.extend (by simp [Round.times]) fun round hr => ?_) ?_ (by simp [hsignals]) ?_
  · rcases List.mem_append.1 hr with hr | hr
    · exact (h.sound round hr).append _
    · rw [List.mem_singleton.1 hr]
      exact ⟨⟨e, rest, occurs_last hrun _, hi⟩, fun errand he => by cases he⟩
  · cases hparcel : Signal.parcel? item with
    | some parcel =>
      have hp : Position.after item = .collecting parcel := by
        simp only [Position.after, hparcel]
      rw [hp]
      exact ⟨rounds, item, events.length, rfl, hcomplete, Signal.parcel?_eq_some_iff.1 hparcel⟩
    | none =>
      have hp : Position.after item = .free := by
        simp only [Position.after, hparcel]
      rw [hp]
      intro round hr parcel ha
      rcases List.mem_append.1 hr with hr | hr
      · exact hcomplete round hr parcel ha
      · rw [List.mem_singleton.1 hr] at ha
        cases hparcel.symm.trans (Signal.parcel?_eq_some_iff.2 ha)
  · exact h.lanes_keep hrun rfl (fun _ _ => ⟨rfl, rfl⟩) fun feed lane => by
      simp [List.filterMap_append, Round.gift?]

theorem collect (hrun : (Engine.start capacity timer).run events = some e) (hw : e.registry.Wired)
    (h : Chronicle capacity timer events e.mail rounds) {parcel : Parcel Update}
    (hs : e.dispatcher.stage = .collecting parcel) :
    ∃ rounds', Chronicle capacity timer (events ++ [.grant .dispatcher])
      { e.mail with position := .sending parcel (e.registry.targets parcel) } rounds' := by
  have hp : e.mail.position = .collecting parcel := congrArg Stage.position hs
  have hst := h.stands
  rw [hp] at hst
  obtain ⟨earlier, item, n, rfl, hcomplete, ha⟩ := hst
  have hold := h.sound _ (List.mem_append_right _ List.mem_cons_self)
  have herrand : Errand.Sound capacity timer (events ++ [.grant .dispatcher])
      ⟨parcel, events.length, e.registry.targets parcel, []⟩ :=
    ⟨⟨e, occurs_last hrun _, hs, fun _ => Registry.mem_targets⟩, hw.nodup_targets parcel,
      List.nil_prefix, fun v hv => by cases hv⟩
  refine ⟨earlier ++ [⟨item, n, some ⟨parcel, events.length, e.registry.targets parcel, []⟩⟩],
    h.advance rfl (by simp [hp]) (h.toAnnals.extend_last (by simp [Round.times])
      ⟨(hold.append _).took, ?_⟩) ?_ (by simp) ?_⟩
  · rintro errand he
    cases he
    exact ⟨ha, herrand⟩
  · exact ⟨earlier, item, n, events.length, [], rfl, hcomplete⟩
  · exact h.lanes_keep hrun rfl (fun _ _ => ⟨rfl, rfl⟩) fun feed lane => by
      simp [List.filterMap_append, Round.gift?]

theorem finish (hrun : (Engine.start capacity timer).run events = some e)
    (h : Chronicle capacity timer events e.mail rounds) {parcel : Parcel Update}
    (hs : e.dispatcher.stage = .sending parcel []) :
    Chronicle capacity timer (events ++ [.deliver]) { e.mail with position := .free } rounds := by
  have hp := position_sending hs
  refine h.advance rfl (by simp [hp]) (h.toAnnals.append _) ?_ rfl ?_
  · have hst := h.stands
    rw [hp] at hst
    obtain ⟨earlier, item, n, k, visits, rfl, hcomplete⟩ := hst
    intro round hr parcel' ha
    rcases List.mem_append.1 hr with hr | hr
    · exact hcomplete round hr parcel' ha
    · have hsound := h.sound round (List.mem_append_right _ hr)
      rw [List.mem_singleton.1 hr] at ha hsound ⊢
      have hparcel := Signal.parcel?_eq_some_iff.2 (hsound.errand _ rfl).1
      rw [Signal.parcel?_eq_some_iff.2 ha] at hparcel
      exact ⟨_, rfl, (Option.some.inj hparcel).symm, (List.append_nil _).symm⟩
  · exact h.lanes_keep hrun rfl (fun _ _ => ⟨rfl, rfl⟩) fun _ _ => rfl

theorem visit (hrun : (Engine.start capacity timer).run events = some e)
    (h : Chronicle capacity timer events e.mail rounds) {parcel : Parcel Update} {feed : FeedId}
    {rest : List FeedId} {o : Outlet} (hs : e.dispatcher.stage = .sending parcel (feed :: rest))
    (ho : e.outlets.get? feed = some o) (hpos : m.position = .sending parcel rest)
    (hsig : m.signals = e.mail.signals)
    (hl : ∀ f lane, m.deaf f lane = e.mail.deaf f lane ∧
      m.queued f lane = e.mail.queued f lane ++
        if parcel.lane = lane ∧ feed = f ∧ o.feed.accepts parcel.lane = true then [parcel]
        else []) :
    ∃ rounds', Chronicle capacity timer (events ++ [.deliver]) m rounds' := by
  have hp := position_sending hs
  have hst := h.stands
  rw [hp] at hst
  obtain ⟨earlier, item, n, k, visits, rfl, hcomplete⟩ := hst
  let v : Visit := ⟨feed, events.length, o.feed.accepts parcel.lane⟩
  let errand : Errand := ⟨parcel, k, visits.map Visit.feed ++ feed :: rest, visits⟩
  let errand' : Errand := ⟨parcel, k, (visits ++ [v]).map Visit.feed ++ rest, visits ++ [v]⟩
  have htargets : errand'.targets = errand.targets := by simp [errand, errand', v]
  have hsound := h.sound ⟨item, n, some errand⟩ (List.mem_append_right _ List.mem_cons_self)
  obtain ⟨ha, herrand⟩ := hsound.errand errand rfl
  have hv : v.Sound capacity timer (events ++ [.deliver]) parcel :=
    ⟨e, o, rest, occurs_last hrun _, hs, ho, rfl⟩
  have herrand' : errand'.Sound capacity timer (events ++ [.deliver]) := by
    refine ⟨?_, ?_, List.prefix_append _ _, fun v' hv' => ?_⟩
    · rw [htargets]
      exact (herrand.append _).collected
    · rw [htargets]
      exact herrand.nodup
    · rcases List.mem_append.1 hv' with hv' | hv'
      · exact (herrand.visits v' hv').append _
      · rw [List.mem_singleton.1 hv']
        exact hv
  refine ⟨earlier ++ [⟨item, n, some errand'⟩], h.advance rfl (by simp [hp])
    (h.toAnnals.extend_last (by simp [Round.times, errand', v]) ⟨(hsound.append _).took, ?_⟩)
    ?_ (by simp [hsig]) ?_⟩
  · rintro _ he
    cases he
    exact ⟨ha, herrand'⟩
  · rw [hpos]
    exact ⟨earlier, item, n, k, visits ++ [v], rfl, hcomplete⟩
  · intro f lane
    have hgift : Round.gift? f lane ⟨item, n, some errand'⟩ =
        if parcel.lane = lane ∧ feed = f ∧ o.feed.accepts parcel.lane = true then some parcel
        else Round.gift? f lane ⟨item, n, some errand⟩ := Round.gift?_append ..
    have hlane := h.lanes f lane
    rw [List.filterMap_append] at hlane ⊢
    rw [picks_append_singleton hrun, (hl f lane).1, (hl f lane).2, List.filterMap_cons,
      List.filterMap_nil, hgift]
    rw [List.filterMap_cons, List.filterMap_nil] at hlane
    have hpick : e.pick? f lane .deliver = none := rfl
    rw [hpick, Option.toList_none, List.append_nil]
    by_cases hc : parcel.lane = lane ∧ feed = f ∧ o.feed.accepts parcel.lane = true
    · rw [if_pos hc, if_pos hc]
      obtain ⟨rfl, rfl, hacc⟩ := hc
      have hnot : feed ∉ visits.map Visit.feed := fun hm =>
        (List.nodup_append.1 herrand.nodup).2.2 feed hm feed List.mem_cons_self rfl
      have hnone : Round.gift? feed parcel.lane ⟨item, n, some errand⟩ = none :=
        Round.gift?_of_not_visited hnot
      have hdeaf := deaf_of_accepts ho hacc
      rw [hnone, List.append_nil, hdeaf] at hlane
      rw [hdeaf]
      exact hlane.give parcel
    · rw [if_neg hc, if_neg hc, List.append_nil]
      exact hlane

theorem openFeed (hrun : (Engine.start capacity timer).run events = some e) (hop : e.Opens)
    (h : Chronicle capacity timer events e.mail rounds) (call : Call) :
    Chronicle capacity timer (events ++ [.call call])
      ({ e.mail with fresh := e.fresh + 1 }.setBox e.fresh .new) rounds := by
  have hnone : e.mail.boxes e.fresh = none := by
    by_contra hb
    exact absurd (hop.lt e.fresh hb) (Nat.lt_irrefl _)
  refine h.keep rfl rfl rfl (h.lanes_keep hrun rfl (fun feed lane => ?_) fun _ _ => rfl)
  rw [Mail.queued_setBox, Mail.deaf_setBox]
  by_cases hf : feed = e.fresh
  · subst hf
    rw [if_pos rfl, if_pos rfl, Mail.queued, Mail.deaf, hnone]
    exact ⟨rfl, rfl⟩
  · rw [if_neg hf, if_neg hf]
    exact ⟨rfl, rfl⟩

theorem arrive (hrun : (Engine.start capacity timer).run events = some e)
    (h : Chronicle capacity timer events e.mail rounds) (item : Except Error Signal) :
    Chronicle capacity timer (events ++ [.signal item])
      { e.mail with signals := if e.dispatcher.hasStopped then e.dispatcher.signals
        else e.dispatcher.signals ++ [item] } rounds := by
  have harr : (events ++ [Event.signal item]).filterMap Event.arrival? =
      events.filterMap Event.arrival? ++ [item] := by
    rw [List.filterMap_append]
    rfl
  cases hs : e.dispatcher.hasStopped with
  | true =>
    have hp := hasStopped_iff_position.1 hs
    refine ⟨h.toAnnals.append _, h.stands, ?_, fun hn => absurd hp hn,
      h.lanes_keep hrun rfl (fun _ _ => ⟨rfl, rfl⟩) fun _ _ => rfl⟩
    rw [harr]
    exact h.arrivals.trans (List.prefix_append _ _)
  | false =>
    have hn : e.mail.position ≠ .stopped := fun hp => by
      rw [hasStopped_iff_position.2 hp] at hs
      cases hs
    have hall : rounds.map Round.item ++ (e.dispatcher.signals ++ [item]) =
        events.filterMap Event.arrival? ++ [item] := by
      rw [← h.awaited hn, List.append_assoc]
      rfl
    refine ⟨h.toAnnals.append _, h.stands, ?_, fun _ => ?_,
      h.lanes_keep hrun rfl (fun _ _ => ⟨rfl, rfl⟩) fun _ _ => rfl⟩
    · rw [harr, ← hall]
      exact List.prefix_rfl
    · rw [harr, ← hall]
      rfl

theorem take (hrun : (Engine.start capacity timer).run events = some e)
    (h : Chronicle capacity timer events e.mail rounds) {feed : FeedId} {lane : Lane} {o : Outlet}
    {parcel : Parcel Update} {rest : List (Parcel Update)} (ho : e.outlets.get? feed = some o)
    (hq : o.feed.queued lane = parcel :: rest) :
    Chronicle capacity timer (events ++ [.take (.feed feed) lane])
      (e.mail.setBox feed (o.feed.box.setQueue lane rest)) rounds := by
  have hbox := box_of_outlet ho
  refine h.keep rfl rfl rfl fun f l => ?_
  have hlane := h.lanes f l
  rw [picks_append_singleton hrun, Mail.queued_setBox, Mail.deaf_setBox, Box.queued_setQueue]
  by_cases hf : f = feed
  · subst hf
    rw [Mail.queued_of_box hbox, Mail.deaf_of_box hbox] at hlane
    by_cases hl : l = lane
    · subst hl
      have hpick : e.pick? f l (.take (.feed f) l) = some parcel := by
        have hqueue : o.feed.box.queued l = parcel :: rest := hq
        simp [pick?, Event.pickup?, Mail.queued_of_box hbox, hqueue]
      have hqueue : o.feed.box.queued l = parcel :: rest := hq
      rw [if_pos rfl, if_pos rfl, if_pos rfl, hpick]
      rw [hqueue] at hlane
      exact hlane.pick
    · have hpick : e.pick? f l (.take (.feed f) lane) = none := by
        simp [pick?, Event.pickup?, Ne.symm hl]
      rw [if_pos rfl, if_pos rfl, if_neg hl, hpick, Option.toList_none, List.append_nil]
      exact hlane
  · have hpick : e.pick? f l (.take (.feed feed) lane) = none := by
      simp [pick?, Event.pickup?, Ne.symm hf]
    rw [if_neg hf, if_neg hf, hpick, Option.toList_none, List.append_nil]
    exact hlane

theorem hangUp (hrun : (Engine.start capacity timer).run events = some e)
    (h : Chronicle capacity timer events e.mail rounds) {feed : FeedId} {o : Outlet} (lane : Lane)
    (ho : e.outlets.get? feed = some o) :
    Chronicle capacity timer (events ++ [.hangUp (.feed feed) lane])
      (e.mail.setBox feed (o.feed.box.hangUp lane)) rounds := by
  have hbox := box_of_outlet ho
  refine h.keep rfl rfl rfl fun f l => ?_
  have hlane := h.lanes f l
  have hpick : e.pick? f l (.hangUp (.feed feed) lane) = none := rfl
  rw [picks_append_singleton hrun, Mail.queued_setBox, Mail.deaf_setBox, Box.queued_hangUp,
    Box.listening_hangUp, hpick, Option.toList_none, List.append_nil]
  by_cases hf : f = feed
  · subst hf
    rw [if_pos rfl, if_pos rfl]
    by_cases hl : l = lane
    · rw [if_pos hl, if_pos hl]
      exact hlane.hangUp
    · rw [if_neg hl, if_neg hl]
      rwa [Mail.queued_of_box hbox, Mail.deaf_of_box hbox] at hlane
  · rw [if_neg hf, if_neg hf]
    exact hlane

theorem stop (hrun : (Engine.start capacity timer).run events = some e)
    (h : Chronicle capacity timer events e.mail rounds) (hs : e.dispatcher.stage = .idle) :
    Chronicle capacity timer (events ++ [.stop]) { e.mail with signals := [], position := .stopped }
      rounds := by
  refine ⟨h.toAnnals.append _, ?_, ?_, fun hn => absurd rfl hn, ?_⟩
  · have hst := h.stands
    rwa [position_idle hs] at hst
  · rw [filterMap_arrival_append rfl]
    exact ((List.prefix_append_right_inj _).2 List.nil_prefix).trans h.arrivals
  · exact h.lanes_keep hrun rfl (fun _ _ => ⟨rfl, rfl⟩) fun _ _ => rfl

theorem shift (hrun : (Engine.start capacity timer).run events = some e) (hop : e.Opens)
    (hw : e.registry.Wired) (h : Chronicle capacity timer events e.mail rounds)
    (hs : e.Shift event m) : ∃ rounds', Chronicle capacity timer (events ++ [event]) m rounds' := by
  cases hs with
  | rest ha hp hn =>
    exact ⟨rounds, h.keep ha rfl rfl (h.lanes_keep hrun hp (fun _ _ => ⟨rfl, rfl⟩) fun _ _ => rfl)⟩
  | number hn =>
    have ha : event.arrival? = none ∧ event.pickup? = none := by
      cases event <;> first | exact ⟨rfl, rfl⟩ | cases hn
    exact ⟨rounds, h.keep ha.1 rfl rfl
      (h.lanes_keep hrun ha.2 (fun _ _ => ⟨rfl, rfl⟩) fun _ _ => rfl)⟩
  | openFeed call => exact ⟨rounds, h.openFeed hrun hop call⟩
  | arrive item => exact ⟨rounds, h.arrive hrun item⟩
  | takeSignal hs hi => exact ⟨_, h.takeSignal hrun hs hi⟩
  | collect hs => exact h.collect hrun hw hs
  | finish hs => exact ⟨rounds, h.finish hrun hs⟩
  | @deliver parcel feed rest o hs ho ha =>
    refine h.visit hrun hs ho rfl rfl fun f lane => ?_
    rw [Mail.queued_setBox, Mail.deaf_setBox]
    by_cases hf : f = feed
    · subst hf
      rw [if_pos rfl, if_pos rfl, Mail.queued_of_box (box_of_outlet ho),
        Mail.deaf_of_box (box_of_outlet ho)]
      refine ⟨rfl, ?_⟩
      rw [Box.add, Box.queued_setQueue]
      by_cases hl : lane = parcel.lane
      · rw [if_pos hl, if_pos ⟨hl.symm, rfl, ha⟩, hl]
      · rw [if_neg hl, if_neg fun hc => hl hc.1.symm, List.append_nil]
    · rw [if_neg hf, if_neg hf, if_neg fun hc => hf hc.2.1.symm, List.append_nil]
      exact ⟨rfl, rfl⟩
  | @skip parcel feed rest hs ho =>
    have hopen := hop.targets parcel _ (position_sending hs) feed List.mem_cons_self
    obtain ⟨box, hbox⟩ := Option.ne_none_iff_exists'.1 hopen
    obtain ⟨o, hout, -⟩ := Option.map_eq_some_iff.1 hbox
    refine h.visit hrun hs hout rfl rfl fun f lane => ⟨rfl, ?_⟩
    rw [if_neg fun hc => by simp [ho o hout] at hc, List.append_nil]
    rfl
  | take ho hq => exact ⟨rounds, h.take hrun ho hq⟩
  | hangUp lane ho => exact ⟨rounds, h.hangUp hrun lane ho⟩
  | stop hs => exact ⟨rounds, h.stop hrun hs⟩

theorem exists_of_run (hrun : (Engine.start capacity timer).run events = some e) :
    ∃ rounds, Chronicle capacity timer events e.mail rounds := by
  induction events using List.reverseRecOn generalizing e with
  | nil =>
    cases hrun
    exact ⟨[], .start capacity timer⟩
  | append_singleton events event ih =>
    rw [run_append] at hrun
    obtain ⟨e₀, h₀, hr⟩ := Option.bind_eq_some_iff.1 hrun
    obtain ⟨e₁, hs, he⟩ := Option.bind_eq_some_iff.1 hr
    cases he
    obtain ⟨rounds, h⟩ := ih h₀
    have hatt : e₀.Attained := (Attained.start capacity timer).run h₀
    have hop : e₀.Opens := (Opens.start capacity timer).run (.start capacity timer) h₀
    exact h.shift h₀ hop hatt.wires.wired (shift_step hs)

theorem complete_dropLast (h : Chronicle capacity timer events m rounds) :
    ∀ round ∈ rounds.dropLast, round.Complete := by
  have hst := h.stands
  unfold Stands at hst
  split at hst
  · exact fun round hr => hst round (List.dropLast_subset _ hr)
  · exact fun round hr => hst round (List.dropLast_subset _ hr)
  · obtain ⟨earlier, item, n, rfl, hcomplete, -⟩ := hst
    rwa [List.dropLast_concat]
  · obtain ⟨earlier, item, n, k, visits, rfl, hcomplete⟩ := hst
    rwa [List.dropLast_concat]

theorem complete (h : Chronicle capacity timer events m rounds)
    (hp : m.position.isServing = false) : ∀ round ∈ rounds, round.Complete := by
  have hst := h.stands
  unfold Stands at hst
  split at hst
  · exact hst
  · exact hst
  · rename_i hpos
    rw [hpos] at hp
    cases hp
  · rename_i hpos
    rw [hpos] at hp
    cases hp

end Chronicle

/-- In every run the dispatcher serves the signals in rounds, one after the other in the order of
the stream. Each round gives every feed that is entitled to the parcel when the targets are
collected one turn, and no other feed; what is found on a lane are the parcels that it took in its
turns, in the order of the rounds. -/
theorem Engine.run_fans_out (h : (start capacity timer).run events = some e) :
    ∃ rounds : List Round,
      (∀ round ∈ rounds, round.Sound capacity timer events) ∧
      (rounds.flatMap Round.times).Pairwise (· < ·) ∧
      (∀ round ∈ rounds.dropLast, round.Complete) ∧
      (e.dispatcher.stage.position.isServing = false → ∀ round ∈ rounds, round.Complete) ∧
      rounds.map Round.item <+: events.filterMap Event.arrival? ∧
      (e.dispatcher.hasStopped = false →
        events.filterMap Event.arrival? = rounds.map Round.item ++ e.dispatcher.signals) ∧
      ∀ feed lane, Ledger (e.mail.deaf feed lane) (e.mail.queued feed lane)
        (rounds.filterMap (Round.gift? feed lane))
        (picks feed lane (start capacity timer) events) := by
  obtain ⟨rounds, hc⟩ := Chronicle.exists_of_run h
  refine ⟨rounds, hc.sound, hc.ordered, hc.complete_dropLast, hc.complete, ?_, fun hs => ?_,
    hc.lanes⟩
  · exact (List.prefix_append _ _).trans hc.arrivals
  · refine (hc.awaited fun hp => ?_).symm
    rw [Engine.hasStopped_iff_position.2 hp] at hs
    cases hs

/-- A set and a single subscription of one unit, an update and an error. The consumer of the single
subscription goes away before its turn. -/
def Engine.shared : List Event :=
  [.openSet, .call (.add 0 "a.service"), .grant (.caller 1), .matchReturned (.ok ()),
    .call (.attach 0 4 4 none), .grant (.caller 2), .call (.subscribe "a.service" 4 none),
    .grant (.caller 3), .signal (.ok (.unitNew "a.service" "/a")), .takeSignal,
    .signal (.error (.ioError "bus")), .grant .dispatcher, .deliver,
    .hangUp (.feed 3) .values, .deliver, .take (.feed 2) .values, .deliver, .takeSignal,
    .grant .dispatcher, .deliver, .deliver]

theorem Engine.run_fans_out_shared :
    ∃ (e : Engine) (rounds : List Round), (start 1 .exact).run shared = some e ∧
      (∀ round ∈ rounds, round.Complete) ∧
      (rounds.map Round.item).length = 2 ∧
      (rounds.filterMap (Round.gift? 2 .values)).length = 1 ∧
      (rounds.filterMap (Round.gift? 2 .faults)).length = 1 ∧
      (rounds.filterMap (Round.gift? 3 .faults)).length = 0 := by
  let e := ((start 1 .exact).run shared).get (by decide +kernel)
  have hr : (start 1 .exact).run shared = some e := (Option.some_get _).symm
  obtain ⟨rounds, -, -, -, hcomplete, -, hitems, hlanes⟩ := run_fans_out hr
  have hgiven (feed : FeedId) (lane : Lane) (hd : e.mail.deaf feed lane = false) :
      (rounds.filterMap (Round.gift? feed lane)).length =
        (picks feed lane (start 1 .exact) shared ++ e.mail.queued feed lane).length := by
    rw [(hlanes feed lane).kept hd]
  refine ⟨e, rounds, hr, hcomplete (by decide +kernel), ?_, ?_, ?_, ?_⟩
  · have hn : (shared.filterMap Event.arrival?).length = 2 := rfl
    have hs : e.dispatcher.signals = [] := List.isEmpty_iff.1 (by decide +kernel)
    have hall := hitems (by decide +kernel)
    rw [hs, List.append_nil] at hall
    rw [← hall, hn]
  · exact (hgiven 2 .values (by decide +kernel)).trans (by decide +kernel)
  · exact (hgiven 2 .faults (by decide +kernel)).trans (by decide +kernel)
  · exact (hgiven 3 .faults (by decide +kernel)).trans (by decide +kernel)

end UnitControl
