import UnitControl.Proofs.Engine.Outlets

/-!
# Rounds of deliveries

The dispatcher deals with one signal at a time, in rounds: it takes the signal, collects the targets
of the parcel, and gives each target its turn. A round is told by the events of a run in which all
this happens.
-/

namespace UnitControl

/-- A feed has its turn, in the event with this number, and takes the parcel or not. -/
structure Visit where
  feed : FeedId
  time : Nat
  accepted : Bool

/-- The delivery of one parcel, whose targets are collected in the event with this number. -/
structure Errand where
  parcel : Parcel Update
  time : Nat
  targets : List FeedId
  visits : List Visit

/-- What the dispatcher does about an item, which it takes in the event with this number. -/
structure Round where
  item : Except Error Signal
  time : Nat
  errand? : Option Errand

/-- What was put on a lane and what was picked from it, with what is queued in between. A lane to
which nobody listens any more is empty. -/
structure Ledger (deaf : Bool) (queue given picked : List (Parcel Update)) : Prop where
  kept : deaf = false → given = picked ++ queue
  lost : deaf = true → queue = []
  in_order : picked <+: given

namespace Ledger

variable {deaf : Bool} {queue given picked : List (Parcel Update)} {parcel : Parcel Update}

theorem give (h : Ledger false queue given picked) (parcel : Parcel Update) :
    Ledger false (queue ++ [parcel]) (given ++ [parcel]) picked where
  kept _ := by rw [h.kept rfl, List.append_assoc]
  lost hd := by cases hd
  in_order := h.in_order.trans (List.prefix_append _ _)

theorem pick (h : Ledger deaf (parcel :: queue) given picked) :
    Ledger deaf queue given (picked ++ [parcel]) := by
  cases deaf with
  | true => cases h.lost rfl
  | false =>
    have hk : given = (picked ++ [parcel]) ++ queue := by
      rw [h.kept rfl, List.append_assoc, List.singleton_append]
    exact ⟨fun _ => hk, fun hd => (by cases hd), ⟨queue, hk.symm⟩⟩

theorem hangUp (h : Ledger deaf queue given picked) : Ledger true [] given picked :=
  ⟨fun hd => (by cases hd), fun _ => rfl, h.in_order⟩

end Ledger

namespace Mail

variable (m : Mail)

def queued (feed : FeedId) (lane : Lane) : List (Parcel Update) :=
  match m.boxes feed with
  | some box => box.queued lane
  | none => []

/-- Whether a lane of an open feed has lost its receiving end. -/
def deaf (feed : FeedId) (lane : Lane) : Bool :=
  match m.boxes feed with
  | some box => !box.listening lane
  | none => false

variable {m} {feed : FeedId} {box : Box Update}

theorem queued_of_box (h : m.boxes feed = some box) (lane : Lane) :
    m.queued feed lane = box.queued lane := by simp only [queued, h]

theorem deaf_of_box (h : m.boxes feed = some box) (lane : Lane) :
    m.deaf feed lane = !box.listening lane := by simp only [deaf, h]

theorem boxes_setBox (m : Mail) (feed : FeedId) (box : Box Update) (f : FeedId) :
    (m.setBox feed box).boxes f = if f = feed then some box else m.boxes f :=
  Function.update_apply ..

theorem queued_setBox (m : Mail) (feed : FeedId) (box : Box Update) (f : FeedId) (lane : Lane) :
    (m.setBox feed box).queued f lane = if f = feed then box.queued lane else m.queued f lane := by
  unfold queued
  rw [boxes_setBox]
  by_cases hf : f = feed
  · rw [if_pos hf, if_pos hf]
  · rw [if_neg hf, if_neg hf]

theorem deaf_setBox (m : Mail) (feed : FeedId) (box : Box Update) (f : FeedId) (lane : Lane) :
    (m.setBox feed box).deaf f lane = if f = feed then !box.listening lane else m.deaf f lane := by
  unfold deaf
  rw [boxes_setBox]
  by_cases hf : f = feed
  · rw [if_pos hf, if_pos hf]
  · rw [if_neg hf, if_neg hf]

end Mail

theorem Engine.deaf_of_accepts {e : Engine} {feed : FeedId} {o : Outlet} {lane : Lane}
    (ho : e.outlets.get? feed = some o) (ha : o.feed.accepts lane = true) :
    e.mail.deaf feed lane = false := by
  have hlistening : o.feed.box.listening lane = true := Feed.listening_of_accepts ha
  rw [Mail.deaf_of_box (box_of_outlet ho), hlistening, Bool.not_true]

namespace Engine

/-- In the run, the event with this number comes in this state. -/
def Occurs (capacity : Nat) (timer : Timer) (events : List Event) (n : Nat) (event : Event)
    (e : Engine) : Prop :=
  events[n]? = some event ∧ (start capacity timer).run (events.take n) = some e

def pick? (e : Engine) (feed : FeedId) (lane : Lane) (event : Event) : Option (Parcel Update) :=
  if event.pickup? = some (feed, lane) then (e.mail.queued feed lane).head? else none

def picks (feed : FeedId) (lane : Lane) : Engine → List Event → List (Parcel Update)
  | _, [] => []
  | e, event :: rest =>
    (e.pick? feed lane event).toList ++ match e.step event with
      | some e' => picks feed lane e' rest
      | none => []

end Engine

open Engine

/-- The turn of a feed comes in this state; the feed is open, and takes the parcel if the channel is
neither closed nor without a receiving end. -/
def Visit.Sound (capacity : Nat) (timer : Timer) (events : List Event) (parcel : Parcel Update)
    (v : Visit) : Prop :=
  ∃ e o rest, Occurs capacity timer events v.time .deliver e ∧
    e.dispatcher.stage = .sending parcel (v.feed :: rest) ∧ e.outlets.get? v.feed = some o ∧
    v.accepted = o.feed.accepts parcel.lane

/-- The targets are the feeds that are entitled to the parcel when they are collected, and they have
their turns one after the other. -/
structure Errand.Sound (capacity : Nat) (timer : Timer) (events : List Event)
    (errand : Errand) : Prop where
  collected : ∃ e, Occurs capacity timer events errand.time (.grant .dispatcher) e ∧
    e.dispatcher.stage = .collecting errand.parcel ∧
    ∀ feed, feed ∈ errand.targets ↔ e.registry.Entitled errand.parcel feed
  nodup : errand.targets.Nodup
  served : errand.visits.map Visit.feed <+: errand.targets
  visits : ∀ v ∈ errand.visits, v.Sound capacity timer events errand.parcel

/-- An item is the first that waits when it is taken. -/
structure Round.Sound (capacity : Nat) (timer : Timer) (events : List Event)
    (round : Round) : Prop where
  took : ∃ e rest, Occurs capacity timer events round.time .takeSignal e ∧
    e.dispatcher.signals = round.item :: rest
  errand : ∀ errand, round.errand? = some errand →
    Announces round.item errand.parcel ∧ errand.Sound capacity timer events

namespace Round

/-- All targets of the parcel that the item announces have had their turn. -/
def Complete (round : Round) : Prop :=
  ∀ parcel, Announces round.item parcel →
    ∃ errand, round.errand? = some errand ∧ errand.parcel = parcel ∧
      errand.visits.map Visit.feed = errand.targets

def times (round : Round) : List Nat :=
  round.time :: match round.errand? with
    | some errand => errand.time :: errand.visits.map Visit.time
    | none => []

def gift? (feed : FeedId) (lane : Lane) (round : Round) : Option (Parcel Update) :=
  match round.errand? with
  | some errand =>
    if errand.parcel.lane = lane ∧ ∃ v ∈ errand.visits, v.feed = feed ∧ v.accepted = true then
      some errand.parcel
    else none
  | none => none

theorem gift?_append (item : Except Error Signal) (n k : Nat) (parcel : Parcel Update)
    (targets targets' : List FeedId) (visits : List Visit) (v : Visit) (feed : FeedId)
    (lane : Lane) :
    gift? feed lane ⟨item, n, some ⟨parcel, k, targets', visits ++ [v]⟩⟩ =
      if parcel.lane = lane ∧ v.feed = feed ∧ v.accepted = true then some parcel
      else gift? feed lane ⟨item, n, some ⟨parcel, k, targets, visits⟩⟩ := by
  have hv : (∃ v' ∈ visits ++ [v], v'.feed = feed ∧ v'.accepted = true) ↔
      (v.feed = feed ∧ v.accepted = true) ∨
        ∃ v' ∈ visits, v'.feed = feed ∧ v'.accepted = true := by
    simp [or_and_right, exists_or, or_comm]
  simp only [gift?, hv, and_or_left]
  by_cases hnew : parcel.lane = lane ∧ v.feed = feed ∧ v.accepted = true
  · rw [if_pos hnew, if_pos (.inl hnew)]
  · simp only [if_neg hnew, or_iff_right hnew]

theorem gift?_of_not_visited {item : Except Error Signal} {n : Nat} {errand : Errand}
    {feed : FeedId} {lane : Lane} (h : feed ∉ errand.visits.map Visit.feed) :
    gift? feed lane ⟨item, n, some errand⟩ = none := by
  simp only [gift?, ite_eq_right_iff, reduceCtorEq, imp_false]
  rintro ⟨-, v, hv, hf, -⟩
  exact h (hf ▸ List.mem_map_of_mem hv)

end Round

/-- How far the last round has come. -/
def Stands : Position → List Round → Prop
  | .free, rounds | .stopped, rounds => ∀ round ∈ rounds, round.Complete
  | .collecting parcel, rounds => ∃ earlier item n,
      rounds = earlier ++ [⟨item, n, none⟩] ∧ (∀ round ∈ earlier, round.Complete) ∧
        Announces item parcel
  | .sending parcel rest, rounds => ∃ earlier item n k visits,
      rounds = earlier ++
        [⟨item, n, some ⟨parcel, k, visits.map Visit.feed ++ rest, visits⟩⟩] ∧
      ∀ round ∈ earlier, round.Complete

/-- The rounds are those of the run, and what they tell happened in this order. -/
structure Annals (capacity : Nat) (timer : Timer) (events : List Event)
    (rounds : List Round) : Prop where
  ordered : (rounds.flatMap Round.times).Pairwise (· < ·)
  past : ∀ n ∈ rounds.flatMap Round.times, n < events.length
  sound : ∀ round ∈ rounds, round.Sound capacity timer events

variable {capacity : Nat} {timer : Timer} {events : List Event} {event : Event} {e : Engine}

theorem occurs_append {n : Nat} (h : Occurs capacity timer events n event e) (later : List Event) :
    Occurs capacity timer (events ++ later) n event e := by
  obtain ⟨hn, hr⟩ := h
  obtain ⟨hlt, -⟩ := List.getElem?_eq_some_iff.1 hn
  refine ⟨by rw [List.getElem?_append_left hlt, hn], ?_⟩
  rw [List.take_append_of_le_length (Nat.le_of_lt hlt), hr]

theorem occurs_last (h : (start capacity timer).run events = some e) (event : Event) :
    Occurs capacity timer (events ++ [event]) events.length event e := by
  refine ⟨by simp, ?_⟩
  rw [List.take_left, h]

theorem Visit.Sound.append {parcel : Parcel Update} {v : Visit}
    (h : v.Sound capacity timer events parcel) (later : List Event) :
    v.Sound capacity timer (events ++ later) parcel := by
  obtain ⟨e, o, rest, ho, h⟩ := h
  exact ⟨e, o, rest, occurs_append ho later, h⟩

theorem Errand.Sound.append {errand : Errand} (h : errand.Sound capacity timer events)
    (later : List Event) : errand.Sound capacity timer (events ++ later) where
  collected := by
    obtain ⟨e, ho, h⟩ := h.collected
    exact ⟨e, occurs_append ho later, h⟩
  nodup := h.nodup
  served := h.served
  visits v hv := (h.visits v hv).append later

theorem Round.Sound.append {round : Round} (h : round.Sound capacity timer events)
    (later : List Event) : round.Sound capacity timer (events ++ later) where
  took := by
    obtain ⟨e, rest, ho, h⟩ := h.took
    exact ⟨e, rest, occurs_append ho later, h⟩
  errand errand he := (h.errand errand he).imp_right fun h => h.append later

theorem filterMap_arrival_append (ha : event.arrival? = none) :
    (events ++ [event]).filterMap Event.arrival? = events.filterMap Event.arrival? := by
  rw [List.filterMap_append, List.filterMap_cons_none ha, List.filterMap_nil, List.append_nil]

theorem picks_append_singleton {e₀ : Engine} (h : e₀.run events = some e) (feed : FeedId)
    (lane : Lane) (event : Event) :
    picks feed lane e₀ (events ++ [event]) =
      picks feed lane e₀ events ++ (e.pick? feed lane event).toList := by
  induction events generalizing e₀ with
  | nil =>
    cases h
    simp only [List.nil_append, picks]
    cases e.step event <;> simp
  | cons first rest ih =>
    obtain ⟨e₁, hs, hr⟩ := Option.bind_eq_some_iff.1 h
    simp only [List.cons_append, picks, hs, ih hr, List.append_assoc]

namespace Annals

variable {rounds rounds' : List Round}

theorem append (h : Annals capacity timer events rounds) (event : Event) :
    Annals capacity timer (events ++ [event]) rounds where
  ordered := h.ordered
  past n hn := by
    rw [List.length_append]
    exact Nat.lt_add_right _ (h.past n hn)
  sound round hr := (h.sound round hr).append _

/-- What happens last is written down last. -/
theorem extend (h : Annals capacity timer events rounds)
    (ht : rounds'.flatMap Round.times = rounds.flatMap Round.times ++ [events.length])
    (hs : ∀ round ∈ rounds', round.Sound capacity timer (events ++ [event])) :
    Annals capacity timer (events ++ [event]) rounds' where
  ordered := by
    rw [ht, List.pairwise_append]
    refine ⟨h.ordered, List.pairwise_singleton _ _, fun n hn k hk => ?_⟩
    rw [List.mem_singleton.1 hk]
    exact h.past n hn
  past n hn := by
    rw [ht] at hn
    rw [List.length_append, List.length_singleton]
    rcases List.mem_append.1 hn with hn | hn
    · exact Nat.lt_succ_of_lt (h.past n hn)
    · rw [List.mem_singleton.1 hn]
      exact Nat.lt_succ_self _
  sound := hs

theorem extend_last {earlier : List Round} {last last' : Round}
    (h : Annals capacity timer events (earlier ++ [last]))
    (ht : last'.times = last.times ++ [events.length])
    (hs : last'.Sound capacity timer (events ++ [event])) :
    Annals capacity timer (events ++ [event]) (earlier ++ [last']) := by
  refine h.extend ?_ fun round hr => ?_
  · simp [List.flatMap_append, ht]
  · rcases List.mem_append.1 hr with hr | hr
    · exact (h.sound round (List.mem_append_left _ hr)).append _
    · rw [List.mem_singleton.1 hr]
      exact hs

end Annals

end UnitControl
