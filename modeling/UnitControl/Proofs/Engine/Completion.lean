import UnitControl.Proofs.Engine.Correlation

/-!
# No completion is lost

The dispatcher takes no signal while a job call is out. So a signal that arrives after the call was
made is taken when the path of the job is known, and ends the wait of the caller, however early it
was sent.
-/

namespace UnitControl

/-- The caller has the output of its job, or has given up. -/
def Served (c : CallerId) (history : List Entry) : Prop :=
  (∃ output, Entry.answered c (.job (.ok output)) ∈ history) ∨ TimedOut c history

theorem Served.mono {c : CallerId} {l l' : List Entry} (h : Served c l) (hs : l ⊆ l') :
    Served c l' := by
  obtain ⟨output, hm⟩ | ht := h
  · exact .inl ⟨output, hs hm⟩
  · exact .inr (ht.mono hs)

namespace Entry

/-- The entries on which the way of a completion depends. -/
def IsTurn : Entry → Prop
  | asked (.job ..) | jobReturned _ (.ok _) | arrived _ => True
  | _ => False

end Entry

namespace Engine

/-- A job that was begun has its caller in the table, unless that caller is served. -/
def Retires (e : Engine) : Prop :=
  PathsApart e.record → ∀ c path, Entry.jobReturned c (.ok path) ∈ e.record →
    e.dispatcher.pending.get? path = some c ∨
      Served c e.record ∧ c ∉ e.dispatcher.slots

/-- A completion that has arrived since the call of a caller was made is still to be taken, or the
caller does not wait for it any more. -/
def Reports (e : Engine) : Prop :=
  ∀ c request signal path output,
    Precedes (.asked (.job c request)) (.arrived (.ok signal)) e.record →
    signal.completion? = some (path, output) →
    (∃ item ∈ e.dispatcher.signals, ∃ output, Signal.reported? item = some (path, output)) ∨
      (∀ request', e.dispatcher.stage.call? ≠ some (c, request')) ∧
        e.dispatcher.pending.get? path ≠ some c

structure Completes (e : Engine) : Prop where
  retires : e.dispatcher.hasStopped = false → e.Retires
  reports : e.dispatcher.hasStopped = false → e.Reports

variable {e e' : Engine}

namespace Correlates

theorem returned_lt (ho : e.Orderly) (hc : e.Correlates) {c : CallerId}
    {result : Except Error String} (hm : Entry.jobReturned c result ∈ e.record) :
    c < e.fresh := by
  obtain ⟨later, earlier, he⟩ := List.append_of_mem hm
  have hcoh := hc.coherent
  rw [he] at hcoh
  obtain ⟨request, -, hsub⟩ : Entry.Justified earlier (.jobReturned c result) := hcoh.justified
  refine ho.enqueued (.submit c request) ?_
  rw [he]
  exact List.mem_append_right _ (List.mem_cons_of_mem _ hsub)

end Correlates

theorem not_isTurn_of_answers {l : List Entry} (h : ∀ entry ∈ l, ∃ c a, entry = .answered c a) :
    ∀ entry ∈ l, ¬entry.IsTurn := by
  intro entry hm ht
  obtain ⟨c, a, rfl⟩ := h entry hm
  exact ht

namespace Completes

theorem start (capacity : Nat) (timer : Timer) : (Engine.start capacity timer).Completes where
  retires _ _ c path hm := by cases hm
  reports _ c request signal path output h := by
    obtain ⟨later, earlier, he, -⟩ := h
    cases later <;> cases he

theorem extend (ho : e.Orderly) (hc : e.Correlates) (h : e.Completes) {l : List Entry}
    (hstop : e'.dispatcher.hasStopped = false → e.dispatcher.hasStopped = false)
    (hsig : e'.dispatcher.signals = e.dispatcher.signals)
    (hp : e'.dispatcher.pending = e.dispatcher.pending)
    (hcall : ∀ p, e'.dispatcher.stage.call? = some p → e.dispatcher.stage.call? = some p)
    (hslots : ∀ c ∈ e'.dispatcher.slots, c ∈ e.dispatcher.slots ∨ c = e.fresh)
    (hr : e'.record = l ++ e.record) (hl : ∀ entry ∈ l, ¬entry.IsTurn) : e'.Completes := by
  constructor
  · intro hs hapart c path hm
    rw [hr] at hapart hm
    have hm : Entry.jobReturned c (.ok path) ∈ e.record :=
      (List.mem_append.1 hm).resolve_left fun hm => hl _ hm trivial
    rw [hp, hr]
    refine (h.retires (hstop hs) hapart.of_append c path hm).imp_right ?_
    rintro ⟨hserved, hnot⟩
    refine ⟨hserved.mono (List.subset_append_right _ _), fun hmem => ?_⟩
    rcases hslots c hmem with hmem | hfresh
    · exact hnot hmem
    · exact Nat.ne_of_lt (hc.returned_lt ho hm) hfresh
  · intro hs c request signal path output hpre hcomp
    rw [hr] at hpre
    have hpre := hpre.of_append (by rintro entry hm rfl; exact hl _ hm trivial)
    rw [hsig, hp]
    refine (h.reports (hstop hs) c request signal path output hpre hcomp).imp_right ?_
    rintro ⟨hnot, hpend⟩
    exact ⟨fun request' hcall' => hnot request' (hcall _ hcall'), hpend⟩

theorem append (ho : e.Orderly) (hc : e.Correlates) (h : e.Completes) {l : List Entry}
    (hd : e'.dispatcher = e.dispatcher) (hr : e'.record = l ++ e.record)
    (hl : ∀ entry ∈ l, ¬entry.IsTurn) : e'.Completes := by
  refine h.extend ho hc (fun hs => hd ▸ hs) ?_ ?_ (fun p hcall => hd ▸ hcall)
    (fun c hm => .inl (hd ▸ hm)) hr hl
  · rw [hd]
  · rw [hd]

theorem alike (ho : e.Orderly) (hc : e.Correlates) (ha : Alike e e') (h : e.Completes) :
    e'.Completes := by
  refine h.extend ho hc (l := []) (fun hs => ha.stopped ▸ hs) ha.signals ha.pending
    (fun p hcall => ha.call ▸ hcall) (fun c hm => .inl (ha.slots ▸ hm)) ha.record (by simp)

theorem answer (ho : e.Orderly) (hc : e.Correlates) (h : e.Completes) (id : CallerId)
    (a : Answer) : (e.answer id a).Completes := by
  obtain ⟨l, hr, hl⟩ := record_answer_append e id a
  refine h.append ho hc (dispatcher_answer e id a) hr fun entry hm => ?_
  rw [hl entry hm]
  exact fun ht => ht

theorem book (ho : e.Orderly) (hc : e.Correlates) (h : e.Completes) {l : List Entry}
    (hd : e'.dispatcher = e.dispatcher) (hr : e'.record = l ++ e.record)
    (hl : ∀ entry ∈ l, ¬entry.IsTurn) (task : Task) (p : Registry × Registry.Progress) :
    (e'.book task p).Completes := by
  obtain ⟨l', hrec, hl'⟩ := record_book e' task p
  rw [hr, ← List.append_assoc] at hrec
  refine h.append ho hc ((dispatcher_book e' task p).trans hd) hrec fun entry hm ht => ?_
  rcases List.mem_append.1 hm with hm | hm
  · obtain ⟨call, rfl⟩ | ⟨id, outcome, rfl⟩ := hl' entry hm
    · exact ht
    · exact ht
  · exact hl entry hm ht

theorem dispatch (ho : e.Orderly) (hc : e.Correlates) (h : e.Completes)
    {r : Dispatcher × List Reply} {l : List Entry} (hcons : e.dispatcher.Conserves r)
    (hstop : r.1.hasStopped = false → e.dispatcher.hasStopped = false)
    (hsig : r.1.signals = e.dispatcher.signals) (hp : r.1.pending = e.dispatcher.pending)
    (hcall : ∀ p, r.1.stage.call? = some p → e.dispatcher.stage.call? = some p)
    (hr : e'.record = l ++ e.record) (hl : ∀ entry ∈ l, ¬entry.IsTurn) :
    (e'.dispatch r).Completes := by
  obtain ⟨answers, hrec, ha⟩ := record_dispatch e' r
  rw [hr, ← List.append_assoc] at hrec
  rw [← dispatcher_dispatch e' r] at hstop hsig hp hcall
  refine h.extend ho hc hstop hsig hp hcall (fun c hm => ?_) hrec fun entry hm => ?_
  · rw [dispatcher_dispatch] at hm
    exact .inl (hcons.mem_slots hm)
  · rcases List.mem_append.1 hm with hm | hm
    · exact not_isTurn_of_answers ha entry hm
    · exact hl entry hm

theorem send (ho : e.Orderly) (hc : e.Correlates) (h : e.Completes) {w : Wait} {c : Command}
    (hcaller : c.caller = e.fresh) :
    (({ e with fresh := e.fresh + 1 }.await e.fresh w).send c).Completes := by
  refine h.extend ho hc (l := [.enqueued c]) id rfl rfl (fun _ hcall => hcall) ?_ (record_note _ _)
    (by simp [Entry.IsTurn])
  intro c' hm
  have hm : c' ∈ (e.dispatcher.enqueue c).slots := hm
  simp only [Dispatcher.slots, Dispatcher.enqueue, List.map_append, List.map_cons, List.map_nil,
    List.mem_append, List.mem_singleton, hcaller] at hm ⊢
  tauto

theorem arrive (h : e.Completes) (item : Except Error Signal) :
    ({ e with dispatcher := e.dispatcher.receive item }.note (.arrived item)).Completes := by
  have hr : ({ e with dispatcher := e.dispatcher.receive item }.note (.arrived item)).record =
      .arrived item :: e.record := record_note _ _
  cases hstop : e.dispatcher.hasStopped with
  | true =>
    have hd : e.dispatcher.receive item = e.dispatcher := if_pos hstop
    rw [hd]
    constructor
    · intro hs
      exact absurd (hs.symm.trans hstop) (by simp)
    · intro hs
      exact absurd (hs.symm.trans hstop) (by simp)
  | false =>
    have hd : e.dispatcher.receive item =
        { e.dispatcher with signals := e.dispatcher.signals ++ [item] } :=
      if_neg (by simp [hstop])
    rw [hd] at hr ⊢
    constructor
    · intro _ hapart c path hm
      rw [hr] at hapart hm ⊢
      have hm : Entry.jobReturned c (.ok path) ∈ e.record := by simpa using hm
      refine (h.retires hstop hapart.2 c path hm).imp_right ?_
      rintro ⟨hserved, hnot⟩
      exact ⟨hserved.mono (List.subset_cons_self _ _), hnot⟩
    · intro _ c request signal path output hpre hcomp
      rw [hr] at hpre
      rcases precedes_cons.1 hpre with ⟨he, -⟩ | hpre
      · cases he
        exact .inl ⟨_, List.mem_append_right _ List.mem_cons_self, output, hcomp⟩
      · refine (h.reports hstop c request signal path output hpre hcomp).imp_left ?_
        rintro ⟨item', hm, hrep⟩
        exact ⟨item', List.mem_append_left _ hm, hrep⟩

theorem takeCommand (ho : e.Orderly) (hc : e.Correlates) (h : e.Completes)
    {r : Dispatcher × List Reply} (hr : e.dispatcher.takeCommand? = some r) :
    (e.dispatch r).noteCall.Completes := by
  have hcons := Dispatcher.conserves_takeCommand hr
  obtain ⟨hs, ⟨c₀, request₀, rest, hq, rfl⟩ | ⟨c₀, rest, hq, rfl⟩⟩ :=
    Dispatcher.takeCommand_cases hr
  · have hstop : e.dispatcher.hasStopped = false := by
      simp only [Dispatcher.hasStopped, hs]
    obtain ⟨-, hask⟩ := hc.queued c₀ request₀ (hq ▸ List.mem_cons_self)
    have hrec : (e.dispatch ({ e.dispatcher with
        commands := rest, stage := .calling c₀ request₀ }, [])).noteCall.record =
          .asked (.job c₀ request₀) :: e.record := record_note _ _
    constructor
    · intro _ hapart c path hm
      rw [hrec] at hapart hm ⊢
      have hm : Entry.jobReturned c (.ok path) ∈ e.record := by simpa using hm
      refine (h.retires hstop hapart.2 c path hm).imp_right ?_
      rintro ⟨hserved, hnot⟩
      exact ⟨hserved.mono (List.subset_cons_self _ _), fun hm => hnot (hcons.mem_slots hm)⟩
    · intro _ c request signal path output hpre hcomp
      rw [hrec] at hpre
      have hpre := (precedes_cons.1 hpre).resolve_left (by simp)
      refine (h.reports hstop c request signal path output hpre hcomp).imp_right ?_
      rintro ⟨-, hpend⟩
      refine ⟨fun request' hcall => ?_, hpend⟩
      cases hcall
      exact hask request hpre.mem
  · have hn : ∀ x : Engine, x.dispatcher.stage = .idle → x.noteCall = x := by
      intro x hx
      simp only [noteCall, hx]
    rw [hn _ (by rw [dispatcher_dispatch]; exact hs)]
    exact h.dispatch ho hc (l := []) hcons id rfl rfl (fun _ hcall => hcall) rfl (by simp)

/-- The caller whose call returns takes the place of an older one only if that one has given up. -/
theorem callReturn (ho : e.Orderly) (hc : e.Correlates) (h : e.Completes) {c₀ : CallerId}
    {request₀ : JobRequest} {result : Except Error String} {r : Dispatcher × List Reply}
    (hs : e.dispatcher.stage = .calling c₀ request₀) (hr : e.dispatcher.called? result = some r) :
    ((e.note (.jobReturned c₀ result)).dispatch r).Completes := by
  have hcons := Dispatcher.conserves_called hs hr
  have hstop : e.dispatcher.hasStopped = false := by
    simp only [Dispatcher.hasStopped, hs]
  have hnote : (e.note (.jobReturned c₀ result)).record = .jobReturned c₀ result :: e.record :=
    record_note _ _
  obtain ⟨err, rfl, rfl⟩ | ⟨path₀, rfl, rfl⟩ := Dispatcher.called_cases hs hr
  · refine h.dispatch ho hc (l := [_]) hcons (fun _ => hstop) rfl rfl ?_ hnote ?_
    · intro p hcall
      cases hcall
    · simp [Entry.IsTurn]
  obtain ⟨answers, hrec, ha⟩ := record_dispatch (e.note (.jobReturned c₀ (.ok path₀)))
    ({ e.dispatcher with stage := .idle, pending := e.dispatcher.pending.put path₀ c₀ },
      (e.dispatcher.pending.get? path₀).toList.map fun older => (older, .job (.error .dropped)))
  have ha := not_isTurn_of_answers ha
  rw [hnote] at hrec
  have hsub : e.record ⊆ answers ++ .jobReturned c₀ (.ok path₀) :: e.record :=
    List.subset_append_of_subset_right _ (List.subset_cons_self _ _)
  constructor
  · intro _ hapart c path hm
    rw [hrec] at hapart hm ⊢
    rw [dispatcher_dispatch]
    have hapart := hapart.of_append
    have hm := (List.mem_append.1 hm).resolve_left fun hm => ha _ hm trivial
    rcases List.mem_cons.1 hm with he | hold
    · cases he
      exact .inl ((e.dispatcher.pending.get?_put path₀ c₀ path₀).trans (if_pos rfl))
    rcases h.retires hstop hapart.2 c path hold with hp | ⟨hserved, hnot⟩
    · by_cases hpath : path = path₀
      · -- the older caller of this path is done, and still had its slot
        subst hpath
        obtain ⟨a, hanswered⟩ := hapart.1 c₀ path rfl c hold
        have hgone := (ho.answered c a hanswered).2
        have htimed : TimedOut c e.record := by
          refine (ho.slots c (Dispatcher.mem_slots_of_pending hp)).resolve_left ?_
          rintro ⟨w, hw, -⟩
          rw [hgone] at hw
          cases hw
        refine .inr ⟨.inr (htimed.mono hsub), ?_⟩
        refine hcons.not_mem_slots ho.slots_nodup (?_ : (c, Answer.job (.error .dropped)) ∈ _)
        simp [hp]
      · refine .inl ?_
        exact (e.dispatcher.pending.get?_put path₀ c₀ path).trans ((if_neg hpath).trans hp)
    · exact .inr ⟨hserved.mono hsub, fun hm => hnot (hcons.mem_slots hm)⟩
  · intro _ c request signal path output hpre hcomp
    rw [hrec] at hpre
    have hpre := hpre.of_append (by rintro entry hm rfl; exact ha _ hm trivial)
    have hpre := (precedes_cons.1 hpre).resolve_left (by simp)
    rw [dispatcher_dispatch]
    refine (h.reports hstop c request signal path output hpre hcomp).imp_right ?_
    rintro ⟨hnot, hpend⟩
    refine ⟨fun request' hcall => ?_, ?_⟩
    · cases hcall
    change (e.dispatcher.pending.put path₀ c₀).get? path ≠ some c
    rw [Table.get?_put]
    split
    · rintro he
      cases he
      exact hnot request₀ (by rw [hs]; rfl)
    · exact hpend

/-- A signal is taken while no call is out, so the path that it reports is known or was never given
to a caller that still waits. -/
theorem takeSignal (ho : e.Orderly) (h : e.Completes) {item : Except Error Signal}
    {rest : List (Except Error Signal)} {r : Dispatcher × List Reply}
    (hi : e.dispatcher.signals = item :: rest) (hr : e.dispatcher.takeSignal? = some r) :
    ((e.note (.tookSignal item)).dispatch r).Completes := by
  have hcons := Dispatcher.conserves_takeSignal hi hr
  have hs := (Dispatcher.takeSignal_cases hi hr).1
  have hstop : e.dispatcher.hasStopped = false := by
    simp only [Dispatcher.hasStopped, hs]
  obtain ⟨hsig, hcall, hdone, hpend⟩ := Dispatcher.takeSignal_pending hi hr
  obtain ⟨answers, hrec, ha⟩ := record_dispatch (e.note (.tookSignal item)) r
  have ha := not_isTurn_of_answers ha
  have hnote : (e.note (.tookSignal item)).record = .tookSignal item :: e.record := record_note _ _
  rw [hnote] at hrec
  have hsub : e.record ⊆ ((e.note (.tookSignal item)).dispatch r).record := by
    rw [hrec]
    exact List.subset_append_of_subset_right _ (List.subset_cons_self _ _)
  constructor
  · intro _ hapart c path hm
    rw [hrec] at hapart hm
    have hm := (List.mem_append.1 hm).resolve_left fun hm => ha _ hm trivial
    have hm : Entry.jobReturned c (.ok path) ∈ e.record := by simpa using hm
    rw [dispatcher_dispatch]
    rcases h.retires hstop hapart.of_append.2 c path hm with hp | ⟨hserved, hnot⟩
    · refine ((hpend path c).2 hp).imp_right ?_
      rintro ⟨output, hreplies⟩
      refine ⟨?_, hcons.not_mem_slots ho.slots_nodup
        (?_ : (c, Answer.job (.ok output)) ∈ r.2)⟩
      · obtain ⟨w, hw, -⟩ | htimed := ho.slots c (Dispatcher.mem_slots_of_pending hp)
        · refine .inl ⟨output, ?_⟩
          obtain ⟨d, replies⟩ := r
          cases hreplies
          have hx : { e.note (.tookSignal item) with dispatcher := d }.callers.get? c = some w := hw
          have hrec := record_answer_of_waits hx (.job (.ok output))
          exact hrec ▸ List.mem_cons_self
        · exact .inr (htimed.mono hsub)
      · rw [hreplies]
        exact List.mem_cons_self
    · exact .inr ⟨hserved.mono hsub, fun hm => hnot (hcons.mem_slots hm)⟩
  · intro _ c request signal path output hpre hcomp
    rw [hrec] at hpre
    have hpre := hpre.of_append (by rintro entry hm rfl; exact ha _ hm trivial)
    have hpre := (precedes_cons.1 hpre).resolve_left (by simp)
    rw [dispatcher_dispatch, hsig, hcall]
    have hnocall : ∀ request', (none : Option (CallerId × JobRequest)) ≠ some (c, request') := by
      simp
    rcases h.reports hstop c request signal path output hpre hcomp with
      ⟨item', hm, output', hrep⟩ | ⟨-, hne⟩
    · rw [hi] at hm
      rcases List.mem_cons.1 hm with rfl | hm
      · refine .inr ⟨hnocall, ?_⟩
        rw [hdone path output' hrep]
        simp
      · exact .inl ⟨item', hm, output', hrep⟩
    · exact .inr ⟨hnocall, fun hp => hne ((hpend path c).1 hp)⟩

theorem of_stopped (hs : e.dispatcher.hasStopped = true) : e.Completes := by
  constructor
  · intro hn
    exact absurd (hn.symm.trans hs) (by simp)
  · intro hn
    exact absurd (hn.symm.trans hs) (by simp)

theorem move (ho : e.Orderly) (hc : e.Correlates) (h : e.Completes) (hm : Move e e') :
    e'.Completes := by
  cases hm with
  | rest => exact h
  | number => exact h.append ho hc (l := []) rfl rfl (by simp)
  | refuse ha hd => exact h.append ho hc (l := [_]) rfl (record_note _ _) (by simp [Entry.IsTurn])
  | enrol hw => exact h.append ho hc (l := []) rfl rfl (by simp)
  | submit hs hl => exact h.send ho hc rfl
  | count hs => exact h.send ho hc rfl
  | serve hw hk ha => exact h.answer ho hc _ _
  | expire hw => exact h.answer ho hc _ _
  | operate hh hi => exact h.book ho hc (l := []) rfl rfl (by simp) _ _
  | @resume holder answer hh =>
    have hr : ({ e with holder := none }.note (.matchReturned holder.call answer)).record =
        [.matchReturned holder.call answer] ++ e.record := record_note _ _
    refine h.book ho hc ?_ hr ?_ _ _
    · rfl
    · simp [Entry.IsTurn]
  | arrive item => exact h.arrive item
  | endSignals =>
    exact h.extend ho hc (l := []) id rfl rfl (fun _ hcall => hcall) (fun c hm => .inl hm) rfl
      (by simp)
  | takeCommand hr => exact h.takeCommand ho hc hr
  | callReturn hs hr => exact h.callReturn ho hc hs hr
  | takeSignal hi hr => exact h.takeSignal ho hi hr
  | stop hs =>
    refine of_stopped ?_
    rw [dispatcher_dispatch]
    rfl

end Completes

theorem Attained.completes (h : e.Attained) : e.Completes := by
  induction h with
  | start capacity timer => exact .start capacity timer
  | alike h ha ih => exact ih.alike h.orderly h.correlates ha
  | move h hm ih => exact ih.move h.orderly h.correlates hm

/-- A caller whose job ends after its call was made, be it before the call has returned, waits no
more once the dispatcher is idle and has taken all signals. -/
theorem Reachable.completion_retires (h : e.Reachable) (hapart : PathsApart e.record)
    {c : CallerId} {request : JobRequest} {signal : Signal} {path : String} {output : JobOutput}
    (hret : Entry.jobReturned c (.ok path) ∈ e.record)
    (harr : Precedes (.asked (.job c request)) (.arrived (.ok signal)) e.record)
    (hsig : signal.completion? = some (path, output)) (hidle : e.dispatcher.stage = .idle)
    (hsignals : e.dispatcher.signals = []) :
    e.callers.get? c = none ∧ (∀ path', e.dispatcher.pending.get? path' ≠ some c) ∧
      Served c e.record := by
  have hstop : e.dispatcher.hasStopped = false := by
    simp only [Dispatcher.hasStopped, hidle]
  have hcompletes := h.attained.completes
  have hne : e.dispatcher.pending.get? path ≠ some c := by
    rcases hcompletes.reports hstop c request signal path output harr hsig with
      ⟨item, hm, -⟩ | ⟨-, hne⟩
    · rw [hsignals] at hm
      cases hm
    · exact hne
  obtain ⟨hserved, hnot⟩ := (hcompletes.retires hstop hapart c path hret).resolve_left hne
  refine ⟨?_, fun path' hp => hnot (Dispatcher.mem_slots_of_pending hp), hserved⟩
  obtain ⟨output', ha⟩ | ⟨request', d, -, ha⟩ := hserved
  · exact (h.attained.orderly.answered c _ ha).2
  · exact (h.attained.orderly.answered c _ ha).2

/-- The job of the first caller ends before its call has returned. -/
def race : List Event :=
  [.call (.submit ⟨"StartUnit", ["a.service", "fail"]⟩ none), .takeCommand,
    .signal (.ok (.jobRemoved 1 "/job/1" "a.service" "done")), .jobReturned (.ok "/job/1"),
    .takeSignal]

theorem Reachable.completion_retires_race :
    ∃ e, (Engine.start 1 .exact).run race = some e ∧ PathsApart e.record ∧
      Precedes (.asked (.job 0 ⟨"StartUnit", ["a.service", "fail"]⟩))
        (.arrived (.ok (.jobRemoved 1 "/job/1" "a.service" "done"))) e.record ∧
      e.callers.get? 0 = none ∧ (∀ path, e.dispatcher.pending.get? path ≠ some 0) ∧
      Served 0 e.record := by
  obtain ⟨e, hr⟩ : ∃ e, (Engine.start 1 .exact).run race = some e := ⟨_, rfl⟩
  have hstate : e.record = [.answered 0 (.job (.ok .done)),
        .tookSignal (.ok (.jobRemoved 1 "/job/1" "a.service" "done")),
        .jobReturned 0 (.ok "/job/1"),
        .arrived (.ok (.jobRemoved 1 "/job/1" "a.service" "done")),
        .asked (.job 0 ⟨"StartUnit", ["a.service", "fail"]⟩),
        .enqueued (.submit 0 ⟨"StartUnit", ["a.service", "fail"]⟩)] ∧
      e.dispatcher.stage = .idle ∧ e.dispatcher.signals = [] := by
    cases hr
    exact ⟨rfl, rfl, rfl⟩
  obtain ⟨hrec, hidle, hsignals⟩ := hstate
  have hapart : PathsApart e.record := by
    rw [hrec]
    simp [PathsApart]
  have hret : Entry.jobReturned 0 (.ok "/job/1") ∈ e.record := by
    rw [hrec]
    simp
  have harr : Precedes (.asked (.job 0 ⟨"StartUnit", ["a.service", "fail"]⟩))
      (.arrived (.ok (.jobRemoved 1 "/job/1" "a.service" "done"))) e.record := by
    rw [hrec]
    simp [precedes_cons]
  exact ⟨e, hr, hapart, harr,
    Reachable.completion_retires ⟨1, .exact, race, hr⟩ hapart hret harr rfl hidle hsignals⟩

end Engine

end UnitControl
