import UnitControl.Proofs.Engine.Mail
import UnitControl.Proofs.Engine.Sinks

/-!
# Open feeds

A call opens its feed before it asks for a place in the registry, and an open feed keeps its outlet
for good. So every feed that the dispatcher is to serve has one.
-/

namespace UnitControl.Engine

/-- The registry, or an operation on it, has to do with a feed. -/
def Concerns (e : Engine) (feed : FeedId) : Prop :=
  e.registry.Serves feed ∨
    (∃ id op finish, e.callers.get? id = some (.operation op finish) ∧
      op.newcomer? = some feed) ∨
    ∃ h, e.holder = some h ∧ h.pause.feed? = some feed

variable {e e' : Engine} {feed : FeedId}

theorem Spares.concerns (hs : Spares e e') (h : e'.Concerns feed) : e.Concerns feed := by
  obtain h | ⟨id, op, finish, hw, hn⟩ | ⟨holder, hh, hn⟩ := h
  · exact .inl (hs.registry ▸ h)
  · exact .inr (.inl ⟨id, op, finish, hs.operations id op finish hw, hn⟩)
  · exact .inr (.inr ⟨holder, hs.holder ▸ hh, hn⟩)

theorem Alike.concerns_iff (ha : Alike e e') : e'.Concerns feed ↔ e.Concerns feed := by
  simp only [Concerns, ha.registry, ha.callers, ha.holder]

theorem concerns_await {id : CallerId} {w : Wait} (h : (e.await id w).Concerns feed) :
    e.Concerns feed ∨ ∃ op finish, w = .operation op finish ∧ op.newcomer? = some feed := by
  obtain h | ⟨c, op, finish, hw, hn⟩ | h := h
  · exact .inl (.inl h)
  · have hw : (e.callers.put id w).get? c = some (.operation op finish) := hw
    rw [Table.get?_put] at hw
    split at hw
    · exact .inr ⟨op, finish, Option.some.inj hw, hn⟩
    · exact .inl (.inr (.inl ⟨c, op, finish, hw, hn⟩))
  · exact .inl (.inr (.inr h))

/-- The feeds that an operation leaves to be dealt with are its newcomer and those of before. -/
theorem concerns_book (ho : e.Orderly) (hh : e.holder = none) {task : Task}
    {newcomer? : Option FeedId} {p : Registry × Registry.Progress}
    (hp : Registry.Places e.registry newcomer? p) (h : (e.book task p).Concerns feed) :
    e.Concerns feed ∨ newcomer? = some feed := by
  have hserves : p.1.Serves feed → e.Concerns feed ∨ newcomer? = some feed := fun hs =>
    (hp.serves feed hs).imp .inl And.left
  obtain ⟨r, progress⟩ := p
  cases progress with
  | ask call pause =>
    obtain h | h | ⟨holder, hholder, hn⟩ := h
    · exact hserves h
    · exact .inl (.inr (.inl h))
    · cases hholder
      exact .inr (hp.waits call pause feed rfl hn)
  | done result =>
    rw [book_done] at h
    obtain hs | h | ⟨holder, hholder, hn⟩ := h
    · rw [registry_settle] at hs
      exact hserves hs
    · obtain ⟨c, op, finish, hw, hn⟩ := h
      obtain ⟨-, hw⟩ | hnone := ho.operation_of_settle hw
      · exact .inl (.inr (.inl ⟨c, op, finish, hw, hn⟩))
      · cases hnone.symm.trans hn
    · rw [holder_settle, hh] at hholder
      cases hholder

theorem Move.concerns (ho : e.Orderly) (ha : e.Accounts) (hm : Move e e')
    (h : e'.Concerns feed) : e.Concerns feed ∨ feed = e.fresh ∧ e.fresh < e'.fresh := by
  obtain hs | ⟨w, hw, rfl⟩ | ⟨task, op, hh, hi, rfl⟩ | ⟨holder, answer, hh, rfl⟩ := hm.cases
  · exact .inl (hs.concerns h)
  · obtain h | ⟨op, finish, rfl, hn⟩ := concerns_await h
    · exact .inl h
    · exact .inr ⟨hw.1 feed hn, Nat.lt_succ_self _⟩
  · obtain h | hn := concerns_book ho hh (Registry.places_begin e.registry op) h
    · exact .inl h
    · cases task with
      | caller id =>
        obtain ⟨finish, hw⟩ := hi
        exact .inl (.inr (.inl ⟨id, op, finish, hw, hn⟩))
      | watcher f =>
        obtain ⟨o, hout, rfl⟩ := hi
        cases (ha.endings f o hout).symm.trans hn
      | dispatcher => exact hi.elim
      | poller id => exact hi.elim
  · obtain h | hn := concerns_book (ho.matchReturned _ answer) rfl
      (Registry.places_resume e.registry answer holder.pause) h
    · obtain h | h | ⟨holder', hholder, -⟩ := h
      · exact .inl (.inl h)
      · exact .inl (.inr (.inl h))
      · cases hholder
    · exact .inl (.inr (.inr ⟨holder, hh, hn⟩))

theorem Moves.concerns (hatt : e.Attained) (hm : Moves e e') (h : e'.Concerns feed) :
    e.Concerns feed ∨ feed = e.fresh ∧ e.fresh < e'.fresh := by
  obtain ⟨e₁, e₂, h₁, hm, h₂⟩ := hm
  have hatt := hatt.alike h₁
  obtain h | ⟨hf, hlt⟩ := hm.concerns hatt.orderly hatt.accounts (h₂.concerns_iff.1 h)
  · exact .inl (h₁.concerns_iff.1 h)
  · exact .inr ⟨hf.trans h₁.fresh, by rwa [h₂.fresh, ← h₁.fresh]⟩

theorem concerns_of_await {id : CallerId} {w : Wait} (hs : Spares (e.await id w) e')
    (hw : ∀ op finish, w = .operation op finish → op.newcomer? = none)
    (h : e'.Concerns feed) : e.Concerns feed := by
  obtain h | ⟨op, finish, rfl, hn⟩ := concerns_await (hs.concerns h)
  · exact h
  · cases (hw op finish rfl).symm.trans hn

theorem concerns_submit {id : CallerId} {request : JobRequest} {limit : Option (Nat × Error)}
    (h : (e.submit id request limit).Concerns feed) : e.Concerns feed := by
  unfold submit at h
  split at h
  · exact (Spares.note e _).concerns h
  · refine concerns_of_await (w := .job _) (.of_eq rfl rfl rfl rfl rfl) (by simp) h

theorem concerns_submitWithin {id : CallerId} {request : JobRequest} {d : Duration} {ago : Nat}
    {looks : Bool} (h : (e.submitWithin id request d ago looks).Concerns feed) :
    e.Concerns feed := by
  obtain ⟨err, -, hs⟩ | ⟨deadline, hs⟩ := submitWithin_cases e id request d ago looks
  · rw [hs] at h
    exact (Spares.note e _).concerns h
  · rw [hs] at h
    exact concerns_submit h

theorem concerns_queryLater {id : CallerId} {q : Query}
    (h : (e.queryLater id q).Concerns feed) : e.Concerns feed :=
  concerns_of_await (w := .query q) (.of_eq rfl rfl rfl rfl rfl) (by simp) h

theorem concerns_operateLater {id : CallerId} {op : Registry.Operation} {finish : Finish}
    (hop : op.newcomer? = none) (h : (e.operateLater id op finish).Concerns feed) :
    e.Concerns feed :=
  concerns_of_await (w := .operation op finish) (.of_eq rfl rfl rfl rfl rfl)
    (fun _ _ hw => by cases hw; exact hop) h

theorem concerns_operateOn {id : CallerId} {unit : String} {op : String → Registry.Operation}
    (hop : ∀ unit, (op unit).newcomer? = none) (h : (e.operateOn id unit op).Concerns feed) :
    e.Concerns feed := by
  unfold operateOn at h
  split at h
  · exact concerns_operateLater (hop _) h
  · exact (Spares.note e _).concerns h

theorem opened_of_call {id : CallerId} {call : Call} (h : (e.call id call).Concerns feed)
    (hid : ¬e.Concerns id) (hf : feed = id) : (e.call id call).mail.boxes id ≠ none := by
  subst hf
  have hopen (x : Engine) (hx : x.mail = e.mail.setBox feed .new) : x.mail.boxes feed ≠ none := by
    rw [hx, Mail.setBox]
    simp
  cases call with
  | submit request limit =>
    cases limit with
    | none => exact absurd (concerns_submit h) hid
    | some d => exact absurd (concerns_submitWithin h) hid
  | submitLate request d ago looks => exact absurd (concerns_submitWithin h) hid
  | job kind unit mode =>
    simp only [Engine.call] at h
    split at h
    · exact absurd (concerns_submit h) hid
    · exact absurd ((Spares.note e _).concerns h) hid
  | pendingJobs =>
    simp only [Engine.call] at h
    split at h
    · exact absurd ((Spares.note e _).concerns h) hid
    · have hs : Spares (e.await feed .pending) ((e.await feed .pending).send (.count feed)) :=
        .of_eq rfl rfl rfl rfl rfl
      exact absurd (concerns_of_await hs (by simp) h) hid
  | listUnits =>
    have hs : Spares (e.await feed .listing) (e.call feed .listUnits) := .note _ _
    exact absurd (concerns_of_await hs (by simp) h) hid
  | add s unit => exact absurd (concerns_operateOn (fun _ => rfl) h) hid
  | remove s unit => exact absurd (concerns_operateOn (fun _ => rfl) h) hid
  | contains s unit =>
    simp only [Engine.call] at h
    split at h
    · exact absurd (concerns_queryLater h) hid
    · exact absurd ((Spares.note e _).concerns h) hid
  | members s => exact absurd (concerns_queryLater h) hid
  | attach s values faults refusal => exact hopen _ (mail_attach e feed s values faults refusal)
  | close s =>
    have hs : Spares e { e with sets := e.sets.filter (· != s) } := .of_eq rfl rfl rfl rfl rfl
    exact absurd (hs.concerns (concerns_operateLater rfl h)) hid
  | subscribe unit values refusal => exact hopen _ (mail_subscribe e feed unit values refusal)
  | references unit =>
    simp only [Engine.call] at h
    split at h
    · exact absurd (concerns_queryLater h) hid
    · exact absurd ((Spares.note e _).concerns h) hid

structure Opens (e : Engine) : Prop where
  lt : ∀ feed, e.mail.boxes feed ≠ none → feed < e.fresh
  concerned : ∀ feed, e.Concerns feed → e.mail.boxes feed ≠ none
  targets : ∀ parcel targets, e.mail.position = .sending parcel targets →
    ∀ feed ∈ targets, e.mail.boxes feed ≠ none

theorem Shift.fresh {event : Event} {m : Mail} (h : e.Shift event m) :
    m.fresh = if event.numbers then e.fresh + 1 else e.fresh := by
  cases h with
  | rest ha hp hn => simp [hn, mail]
  | number hn => simp [hn]
  | _ => rfl

theorem Shift.boxes_mono {event : Event} {m : Mail} (h : e.Shift event m)
    (hb : e.mail.boxes feed ≠ none) : m.boxes feed ≠ none := by
  have hset (m : Mail) (hm : m.boxes feed ≠ none) (f : FeedId) (box : Box Update) :
      (m.setBox f box).boxes feed ≠ none := by
    simp only [Mail.setBox, Function.update_apply]
    split
    · exact Option.some_ne_none _
    · exact hm
  cases h with
  | openFeed call => exact hset { e.mail with fresh := e.fresh + 1 } hb _ _
  | deliver hs ho ha => exact hset { e.mail with position := _ } hb _ _
  | take ho hq => exact hset _ hb _ _
  | hangUp lane ho => exact hset _ hb _ _
  | _ => exact hb

theorem Shift.boxes_of_some {event : Event} {m : Mail} (h : e.Shift event m)
    (hb : m.boxes feed ≠ none) :
    e.mail.boxes feed ≠ none ∨ feed = e.fresh ∧ event.numbers = true := by
  have hset {m : Mail} {f : FeedId} {box : Box Update} (hm : (m.setBox f box).boxes feed ≠ none) :
      m.boxes feed ≠ none ∨ feed = f := by
    simp only [Mail.setBox, Function.update_apply] at hm
    split at hm
    · exact .inr ‹_›
    · exact .inl hm
  have hold {f : FeedId} {o : Outlet} (ho : e.outlets.get? f = some o) (hf : feed = f) :
      e.mail.boxes feed ≠ none := by
    simp [mail, hf, ho]
  cases h with
  | openFeed call => exact (hset hb).imp_right fun hf => ⟨hf, rfl⟩
  | deliver hs ho ha => exact .inl ((hset hb).elim id (hold ho))
  | take ho hq => exact .inl ((hset hb).elim id (hold ho))
  | hangUp lane ho => exact .inl ((hset hb).elim id (hold ho))
  | _ => exact .inl hb

namespace Opens

theorem start (capacity : Nat) (timer : Timer) : (Engine.start capacity timer).Opens where
  lt feed hb := absurd rfl hb
  concerned feed h := by
    obtain h | ⟨id, op, finish, hw, -⟩ | ⟨holder, hh, -⟩ := h
    · exact absurd h (not_serves_empty feed)
    · cases hw
    · cases hh
  targets parcel targets hp := by cases hp

theorem newcomer (h : e.Opens) {event : Event} (hr : e.Reaction event e')
    (hn : event.numbers = true) (hc : e'.Concerns e.fresh) : e'.mail.boxes e.fresh ≠ none := by
  have hfresh : ¬e.Concerns e.fresh := fun hc =>
    absurd (h.lt e.fresh (h.concerned e.fresh hc)) (Nat.lt_irrefl _)
  cases hr with
  | call hp => exact opened_of_call hc (fun hc => hfresh ((Spares.number e).concerns hc)) rfl
  | poll hp =>
    have hc := (alike_putPoller (e := { e with fresh := e.fresh + 1 }) e.fresh _).concerns_iff.1 hc
    exact absurd ((Spares.number e).concerns hc) hfresh
  | openSet hp =>
    have hs : Spares { e with fresh := e.fresh + 1 }
      { e with fresh := e.fresh + 1, sets := e.sets ++ [e.fresh] } := .of_eq rfl rfl rfl rfl rfl
    exact absurd ((Spares.number e).concerns (hs.concerns hc)) hfresh
  | _ => cases hn

theorem reaction (hatt : e.Attained) (h : e.Opens) {event : Event} (hr : e.Reaction event e') :
    e'.Opens := by
  have hshift := shift_of_reaction hr
  have hfresh : e'.fresh = if event.numbers then e.fresh + 1 else e.fresh := hshift.fresh
  refine ⟨fun feed hb => ?_, fun feed hc => ?_, fun parcel targets hp feed hf => ?_⟩
  · obtain hb | ⟨rfl, hn⟩ := hshift.boxes_of_some hb
    · have hle : e.fresh ≤ e'.fresh := by
        rw [hfresh]
        split <;> omega
      exact Nat.lt_of_lt_of_le (h.lt feed hb) hle
    · rw [hfresh, if_pos hn]
      exact Nat.lt_succ_self _
  · obtain hc' | ⟨rfl, hlt⟩ := (moves_of_reaction hr).concerns hatt hc
    · exact hshift.boxes_mono (h.concerned feed hc')
    · refine h.newcomer hr ?_ hc
      cases hn : event.numbers with
      | true => rfl
      | false =>
        rw [hfresh, hn] at hlt
        exact absurd hlt (Nat.lt_irrefl _)
  · refine hshift.boxes_mono ?_
    generalize e'.mail = m at hshift hp
    cases hshift with
    | takeSignal hs hi =>
      have hp : Position.after _ = .sending parcel targets := hp
      unfold Position.after at hp
      split at hp <;> cases hp
    | collect hs =>
      cases hp
      exact h.concerned feed (.inl (Registry.mem_targets.1 hf).serves)
    | finish hs => cases hp
    | deliver hs ho ha =>
      cases hp
      exact h.targets parcel _ (congrArg Stage.position hs) feed (List.mem_cons_of_mem _ hf)
    | skip hs ho =>
      cases hp
      exact h.targets parcel _ (congrArg Stage.position hs) feed (List.mem_cons_of_mem _ hf)
    | stop hs => cases hp
    | _ => exact h.targets parcel targets hp feed hf

theorem step (hatt : e.Attained) (h : e.Opens) {event : Event} (hs : e.step event = some e') :
    e'.Opens := by
  obtain ⟨e₁, hreaction, rfl | rfl⟩ := reaction_of_step hs
  · exact h.reaction hatt hreaction
  · have hr := h.reaction hatt hreaction
    have hm := mail_startle e₁
    have ha : Spares e₁ { e₁ with dispatcher := e₁.dispatcher.startle } :=
      .of_eq rfl rfl rfl rfl rfl
    refine ⟨?_, fun feed hc => ?_, ?_⟩
    · rw [hm]
      exact hr.lt
    · rw [hm]
      exact hr.concerned feed (ha.concerns hc)
    · rw [hm]
      exact hr.targets

theorem run (hatt : e.Attained) (h : e.Opens) {events : List Event}
    (hr : e.run events = some e') : e'.Opens :=
  (run_keeps (P := fun x => x.Attained ∧ x.Opens)
    (fun ⟨hatt, h⟩ hs => ⟨hatt.moves (moves_of_step hs), h.step hatt hs⟩) ⟨hatt, h⟩ hr).2

end Opens

end UnitControl.Engine
