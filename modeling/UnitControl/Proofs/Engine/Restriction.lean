import UnitControl.Proofs.Engine.Polling
import UnitControl.Proofs.Poller.Restriction

/-!
# Polling a part of the units

Two pollers that get the same listings, one of which looks at some units only, are told the same
about these units, whatever else happens to them and to their engines.
-/

namespace UnitControl.Engine

variable {e e' : Engine} {id : PollerId} {p : Poller} {events : List Event} {scope : Scope}
  {keep : String → Bool}

/-- All through a run the scope lets through the same names. -/
def Fixes (e : Engine) (events : List Event) (scope : Scope) (keep : String → Bool) : Prop :=
  match scope with
  | .all => ∀ k, keep k = true
  | .named f => f = keep
  | .membersOf s => ∀ seen x, seen <+: events → e.run seen = some x →
      ∀ k, k ∈ x.registry.members s ↔ keep k = true

theorem members_of_pollEvent (event : Event) {members : List String}
    (h : (e.pollEvent? id event).bind Poller.Event.membership? = some members)
    (hp : e.pollers.get? id = some p) : members = e.membersIn p.scope := by
  obtain ⟨noticed, hnoticed, hm⟩ := Option.bind_eq_some_iff.1 h
  unfold pollEvent? at hnoticed
  split at hnoticed
  case h_2 =>
    obtain ⟨q, hq, hscoped⟩ := Option.bind_eq_some_iff.1 hnoticed
    rw [Option.ite_none_right_eq_some, Option.ite_none_right_eq_some] at hscoped
    obtain ⟨-, rfl, hscoped⟩ := hscoped
    rw [← Option.some.inj hscoped] at hm
    cases hm
    rw [Option.some.inj (hp.symm.trans hq)]
  case h_7 => cases hnoticed
  all_goals
    rw [Option.ite_none_right_eq_some] at hnoticed
    cases hnoticed.2
    cases hm

/-- What a poller is told of its set is what the registry has at some moment of the run. -/
theorem mem_memberships (h : e.run events = some e') (hp : e.pollers.get? id = some p)
    (hid : id < e.fresh) {members : List String}
    (hm : members ∈ Poller.memberships (e.pollEvents id events)) :
    ∃ seen x, seen <+: events ∧ e.run seen = some x ∧ members = x.membersIn p.scope := by
  induction events generalizing e p with
  | nil => cases hm
  | cons event rest ih =>
    obtain ⟨e₁, hs, h⟩ := Option.bind_eq_some_iff.1 h
    obtain ⟨p₁, hp₁, hrun⟩ := poller_step hs hp hid
    simp only [pollEvents, hs, Poller.memberships, List.filterMap_append, List.mem_append] at hm
    obtain hm | hm := hm
    · refine ⟨[], e, List.nil_prefix, rfl, members_of_pollEvent event ?_ hp⟩
      obtain ⟨noticed, hnoticed, hmember⟩ := List.mem_filterMap.1 hm
      rw [Option.mem_toList.1 hnoticed]
      exact hmember
    · obtain ⟨seen, x, hseen, hx, hmembers⟩ :=
        ih h hp₁ (Nat.lt_of_lt_of_le hid (fresh_le_of_step hs)) hm
      rw [Poller.scope_of_run hrun] at hmembers
      refine ⟨event :: seen, x, List.prefix_cons_inj _ |>.2 hseen, ?_, hmembers⟩
      simp only [run, hs, Option.bind_some, hx]

theorem Fixes.keeps (hf : e.Fixes events scope keep) (h : e.run events = some e')
    (hp : e.pollers.get? id = some p) (hid : id < e.fresh) (hscope : p.scope = scope) :
    scope.Keeps keep (Poller.memberships (e.pollEvents id events)) := by
  cases scope with
  | all => exact hf
  | named f => exact hf
  | membersOf s =>
    intro members hm k
    obtain ⟨seen, x, hseen, hx, rfl⟩ := mem_memberships h hp hid hm
    rw [hscope]
    exact hf seen x hseen hx k

/-- Of what a poller is told, another one that looks at some units only is told what is about these
units. The one may still have a listing to look at that the other has looked at, and consumers may
have gone. -/
structure Partakes (keep : String → Bool) (part whole : Poller) (messages messages' : List Changes)
    (errors errors' : List Error) : Prop where
  restricts : Table.RestrictEach keep messages messages'
  count : part.feed.listening .values = true → whole.feed.listening .values = true →
    messages'.length = messages.length + part.unscoped.length
  errors_prefix : errors <+: errors' ∨ errors' <+: errors
  errors_eq : part.feed.listening .faults = true → whole.feed.listening .faults = true →
    errors = errors'

variable {e₀ e₁ : Engine} {interval : Duration} {capacity : Nat}
  {isChanged : UnitStatus → UnitStatus → Bool}

/-- Every message of a poller tells of units under their own names, and of the end of units that its
view had after the listing before. If its scope always lets through the same names, then message by
message the poller tells about these names what a poller without a scope tells that gets the same
listings, and its errors are the same. -/
theorem run_restricts_messages (hs : e₀.step (.poll interval capacity isChanged scope) = some e₁)
    (hr : e₁.run events = some e) :
    ∃ p, e.pollers.get? e₀.fresh = some p ∧
      let started := Poller.start interval capacity isChanged scope
      let noticed := e₁.pollEvents e₀.fresh events
      let messages := started.issued .values noticed p
      (∀ (n : Nat) message, messages[n]? = some message → Snapshot.Tells
        (scope.views (Poller.listings noticed) (Poller.memberships noticed)) n message) ∧
      ∀ keep, e₁.Fixes events scope keep →
        ∀ (d₀ d₁ d : Engine) (interval' : Duration) (capacity' : Nat) (events' : List Event),
        d₀.step (.poll interval' capacity' isChanged .all) = some d₁ → d₁.run events' = some d →
        let started' := Poller.start interval' capacity' isChanged .all
        let noticed' := d₁.pollEvents d₀.fresh events'
        Poller.outcomes noticed' = Poller.outcomes noticed →
        ∃ q, d.pollers.get? d₀.fresh = some q ∧
          Partakes keep p q messages (started'.issued .values noticed' q)
            (started.issued .faults noticed p) (started'.issued .faults noticed' q) := by
  obtain ⟨hstart, hlt⟩ := poller_of_poll hs
  obtain ⟨p, hp, hrun⟩ := poller_run hr hstart hlt
  obtain ⟨hpre, hall⟩ := Poller.issued_changes hrun
  obtain ⟨hfaults, hfailed⟩ := Poller.issued_errors hrun
  refine ⟨p, hp, fun n message hn => Snapshot.tells_diffs (getElem?_of_isPrefix hpre hn),
    fun keep hkeep d₀ d₁ d interval' capacity' events' hs' hr' hsame => ?_⟩
  obtain ⟨hstart', hlt'⟩ := poller_of_poll hs'
  obtain ⟨q, hq, hrun'⟩ := poller_run hr' hstart' hlt'
  obtain ⟨hpre', hall'⟩ := Poller.issued_changes hrun'
  obtain ⟨hfaults', hfailed'⟩ := Poller.issued_errors hrun'
  have hlistings : Poller.listings (d₁.pollEvents d₀.fresh events') =
      Poller.listings (e₁.pollEvents e₀.fresh events) := by
    rw [Poller.listings_eq, hsame, ← Poller.listings_eq]
  have hfailures : Poller.failures (d₁.pollEvents d₀.fresh events') =
      Poller.failures (e₁.pollEvents e₀.fresh events) := by
    rw [Poller.failures_eq, hsame, ← Poller.failures_eq]
  rw [Scope.views_all, hlistings] at hpre' hall'
  rw [hfailures] at hfaults' hfailed'
  refine ⟨q, hq, ?_, fun hl hl' => ?_, List.prefix_or_prefix_of_prefix hfaults hfaults',
    fun hl hl' => (hfailed hl).trans (hfailed' hl').symm⟩
  · exact ((hkeep.keeps hr hstart hlt rfl).restrictEach isChanged).of_isPrefix hpre hpre'
  · obtain ⟨-, hlen⟩ := Poller.run_start_messages hrun hl
    rw [hall hl, hall' hl', Snapshot.diffs, Snapshot.diffs, Snapshot.length_diffsFrom,
      Snapshot.length_diffsFrom, List.length_map, List.length_map, hlen]

/-- Two pollers get the same listings. The first one has two rows of one unit, the second one
fails, and in the third one the unit is gone and the other one has changed. -/
def narrowed : List Event :=
  [.wakePoller 0, .wakePoller 1,
    .listReturned (.poller 0) (.ok duplicated), .listReturned (.poller 1) (.ok duplicated),
    .tick 10 10, .wakePoller 0, .wakePoller 1,
    .listReturned (.poller 0) (.error (.ioError "bus")),
    .listReturned (.poller 1) (.error (.ioError "bus")),
    .tick 10 10, .wakePoller 0, .wakePoller 1,
    .listReturned (.poller 0) (.ok [.ofStates "b.service" .loaded .active]),
    .listReturned (.poller 1) (.ok [.ofStates "b.service" .loaded .active])]
where
  duplicated : List UnitStatus :=
    [.ofStates "a.service" .loaded .inactive, .ofStates "b.service" .loaded .inactive,
      .ofStates "a.service" .loaded .active]

theorem run_restricts_messages_narrowed :
    ∃ e₁ d₁ e p q,
      (start 1 .exact).step (.poll ⟨10⟩ 4 UnitStatus.differs (.named (· == "a.service"))) =
        some e₁ ∧
      e₁.step (.poll ⟨10⟩ 4 UnitStatus.differs .all) = some d₁ ∧ d₁.run narrowed = some e ∧
      e.pollers.get? 0 = some p ∧ e.pollers.get? e₁.fresh = some q ∧
      p.feed.values.queue.length = 2 ∧
      Partakes (· == "a.service") p q p.feed.values.queue q.feed.values.queue
        p.feed.faults.queue q.feed.faults.queue := by
  let part : Event := .poll ⟨10⟩ 4 UnitStatus.differs (.named (· == "a.service"))
  let whole : Event := .poll ⟨10⟩ 4 UnitStatus.differs .all
  let e₁ := ((start 1 .exact).step part).get (by decide +kernel)
  let d₁ := (e₁.step whole).get (by decide +kernel)
  let e := (d₁.run narrowed).get (by decide +kernel)
  have hs : (start 1 .exact).step part = some e₁ := (Option.some_get _).symm
  have hs' : e₁.step whole = some d₁ := (Option.some_get _).symm
  have hr' : d₁.run narrowed = some e := (Option.some_get _).symm
  have hr : e₁.run (whole :: narrowed) = some e := by rw [run, hs', Option.bind_some, hr']
  obtain ⟨p, hp, -, h⟩ := run_restricts_messages hs hr
  have hsame : Poller.outcomes (d₁.pollEvents e₁.fresh narrowed) =
      Poller.outcomes (e₁.pollEvents (start 1 .exact).fresh (whole :: narrowed)) := by
    decide +kernel
  obtain ⟨q, hq, h⟩ := h (· == "a.service") rfl e₁ d₁ e ⟨10⟩ 4 narrowed hs' hr' hsame
  have htaken (lane : Lane) :
      (Poller.start ⟨10⟩ 4 UnitStatus.differs (.named (· == "a.service"))).gets lane
        (e₁.pollEvents (start 1 .exact).fresh (whole :: narrowed)) = [] ∧
      (Poller.start ⟨10⟩ 4 UnitStatus.differs .all).gets lane
        (d₁.pollEvents e₁.fresh narrowed) = [] := by
    simp only [← List.isEmpty_iff]
    cases lane <;> decide +kernel
  simp only [Poller.issued, htaken, List.nil_append] at h
  have hlen : (e.pollers.get? 0).map (·.feed.values.queue.length) = some 2 := by decide +kernel
  rw [show e.pollers.get? 0 = some p from hp] at hlen
  exact ⟨e₁, d₁, e, p, q, hs, hs', hr', hp, hq, Option.some.inj hlen, h⟩

end UnitControl.Engine
