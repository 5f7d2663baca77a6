import UnitControl.Proofs.Engine.Deeds

/-!
# Who has the last word on a member

While nobody has the registry, a unit is in a set if the last operation that has ended and that has
anything to say about it has put it there (`standing`). An operation under way has taken out what it
is to take out, and has put in nothing yet. Callers know as much from what they are told
(`lastWord`).
-/

namespace UnitControl

open Registry (Operation Progress)

namespace Registry.Operation

variable {op : Operation} {s : SetId} {unit : String}

/-- Only additions to a set and removals from it, of this unit, and the end of the set have anything
to say about it. -/
theorem verdict_eq_some_iff {ok b : Bool} : op.verdict ok s unit = some b ↔
    op = .add s unit ∧ ok = true ∧ b = true ∨
      (op = .remove s unit ∨ op = .detach s none true) ∧ b = false := by
  cases op with
  | add t v | remove t v => simp [verdict, and_assoc, and_comm, and_left_comm, eq_comm]
  | detach t only forget =>
    cases only <;> cases forget <;> simp [verdict, eq_comm]
  | _ => simp [verdict]

theorem verdict_true_ne_none_iff : op.verdict true s unit ≠ none ↔
    op = .add s unit ∨ op = .remove s unit ∨ op = .detach s none true := by
  rw [Option.ne_none_iff_exists']
  simp [verdict_eq_some_iff, or_comm]

theorem eq_add_of_verdict {ok : Bool} (h : op.verdict ok s unit = some true) :
    op = .add s unit := by
  obtain ⟨hop, -⟩ | ⟨-, hb⟩ := verdict_eq_some_iff.1 h
  · exact hop
  · cases hb

theorem verdict_false (op : Operation) (s : SetId) (unit : String) :
    op.verdict false s unit = none ∨ op.verdict false s unit = some false := by
  cases h : op.verdict false s unit with
  | none => exact .inl rfl
  | some b =>
    obtain ⟨-, hok, -⟩ | ⟨-, rfl⟩ := verdict_eq_some_iff.1 h
    · cases hok
    · exact .inr rfl

theorem decides_of_verdict (h : op.verdict true s unit = none) (ok : Bool)
    (old : SetId → String → Bool) : op.decides ok old s unit = old s unit := by
  have hn : op.verdict ok s unit = none := by
    refine Option.eq_none_iff_forall_ne_some.2 fun b hb => ?_
    refine verdict_true_ne_none_iff.2 ?_ h
    obtain ⟨hop, -⟩ | ⟨hop, -⟩ := verdict_eq_some_iff.1 hb
    · exact .inl hop
    · exact .inr hop
  rw [decides, hn]
  rfl

end Registry.Operation

/-- What the end of a change tells of a unit in a set. -/
def Deed.verdict (s : SetId) (unit : String) (deed : Deed) : Option Bool :=
  deed.1.verdict deed.2.isOk s unit

namespace Engine

variable {e e' : Engine} {event : Event} {events : List Event} {task : Task} {op op' : Operation}
  {p : Registry × Progress} {s : SetId} {unit : String} {calls : CallerId → Option Call}

/-- Whether a unit is in a set, going by the changes that have ended. -/
def standing (e : Engine) (s : SetId) (unit : String) : Bool :=
  ((e.journal.filterMap Entry.deed?).findSome? (Deed.verdict s unit)).getD false

theorem EndsNone.standing (h : EndsNone e e') : e'.standing = e.standing := by
  obtain ⟨added, hj, hadded⟩ := h
  funext s unit
  have hnone : added.filterMap Entry.deed? = [] :=
    List.filterMap_eq_nil_iff.2 fun entry hm => Entry.deed?_of_operated? (hadded entry hm)
  rw [Engine.standing, hj, List.filterMap_append, hnone, List.nil_append, Engine.standing]

theorem Announces.standing {result : Except Error Unit} (h : e.Announces task op result e') :
    e'.standing = op.decides result.isOk e.standing := by
  obtain ⟨later, earlier, hj, hlater, hearlier, -⟩ := h
  have hl : later.filterMap Entry.deed? = [] :=
    List.filterMap_eq_nil_iff.2 fun entry hm => Entry.deed?_of_operated? (hlater entry hm)
  have he : earlier.filterMap Entry.deed? = [] := List.filterMap_eq_nil_iff.2 fun entry hm =>
    Entry.deed?_of_operated? (Entry.operated?_of_isSilent (hearlier entry hm))
  have hdeeds : e'.journal.filterMap Entry.deed? =
      (if op.isChange then [(op, result)] else []) ++ e.journal.filterMap Entry.deed? := by
    rw [hj, List.filterMap_append, hl, List.nil_append, List.filterMap_cons,
      List.filterMap_append, he, List.nil_append]
    cases hop : op.isChange <;> simp [Entry.deed?, hop]
  cases hop : op.isChange with
  | false =>
    rw [op.decides_of_not_isChange hop]
    funext s unit
    rw [Engine.standing, hdeeds, if_neg (by simp [hop]), List.nil_append, Engine.standing]
  | true =>
    funext s unit
    have hverdict : Deed.verdict s unit (op, result) = op.verdict result.isOk s unit := rfl
    rw [Engine.standing, hdeeds, if_pos hop, List.singleton_append, List.findSome?_cons, hverdict,
      Operation.decides]
    cases op.verdict result.isOk s unit <;> rfl

/-- The members of all sets are what the operations that have ended and the one under way have made
of them. -/
structure Settled (e : Engine) : Prop where
  free : e.holder = none → e.registry.membership = e.standing
  held : ∀ holder, e.holder = some holder → ∃ op, e.Intends holder.task op ∧
    holder.pause.Continues op ∧ e.registry.membership = op.decides false e.standing

theorem Intends.unique (h : e.Intends task op) (h' : e.Intends task op') : op = op' :=
  Option.some.inj ((intent?_eq_some_iff.2 h).symm.trans (intent?_eq_some_iff.2 h'))

theorem Undisturbed.intends (h : Undisturbed e e') (hopens : e.Opens)
    (hs : e.step event = some e') (hi : e.Intends task op) : e'.Intends task op := by
  cases task with
  | caller c =>
    obtain ⟨finish, hw⟩ := hi
    exact ⟨finish, h.operations c op finish hw⟩
  | watcher feed =>
    obtain ⟨o, ho, hend⟩ := hi
    have hlt : feed < e.fresh := hopens.lt feed (by simp [mail, ho])
    obtain ⟨o', ho', hend', -⟩ := stays_of_step Feed.lasting_isClosed hs hlt ho
    exact ⟨o', ho', hend'.trans hend⟩
  | dispatcher => exact hi
  | poller id => exact hi

namespace Settled

theorem start (capacity : Nat) (timer : Timer) : (Engine.start capacity timer).Settled where
  free _ := rfl
  held holder h := by cases h

theorem intends_of_held (h : e.Settled) (holder : Holder) (hh : e.holder = some holder) :
    ∃ op, e.Intends holder.task op := by
  obtain ⟨op, hi, -⟩ := h.held holder hh
  exact ⟨op, hi⟩

/-- A task that goes on with its operation has made of the members what they are, and goes on to
make of them what it is to. -/
theorem follows (h : e.Settled) (hop : op.IsPlain) (hi : e.Intends task op)
    (ht : e.Turns event task op p) :
    (e.registry.membership = e.standing ∨ e.registry.membership = op.decides false e.standing) ∧
      Registry.Follows op e.standing p := by
  obtain ⟨-, hh, rfl⟩ | ⟨holder, answer, -, hh, rfl, rfl⟩ := ht
  · have hfree := h.free hh
    exact ⟨.inl hfree, hfree ▸ Registry.follows_begin hop e.registry⟩
  · obtain ⟨op', hi', hpause, hheld⟩ := h.held holder hh
    obtain rfl := hi.unique hi'
    exact ⟨.inr hheld, Registry.follows_resume hheld hpause answer⟩

theorem performs (hf : Registry.Follows op e.standing p) (hp : e.Performs task op p e') :
    e'.Settled := by
  obtain ⟨r, progress⟩ := p
  cases progress with
  | ask call pause =>
    obtain ⟨hh, hi, hends⟩ := hp.ask call pause rfl
    refine ⟨fun hn => (by cases hh.symm.trans hn), fun holder hholder => ?_⟩
    cases hh.symm.trans hholder
    refine ⟨op, hi, hf.2, ?_⟩
    rw [hp.registry, hends.standing]
    exact hf.1
  | done result =>
    obtain ⟨hh, hannounces⟩ := hp.done result rfl
    refine ⟨fun _ => ?_, fun holder hholder => (by cases hh.symm.trans hholder)⟩
    rw [hp.registry, hannounces.standing]
    exact hf

theorem undisturbed (h : e.Settled) (hopens : e.Opens) (hs : e.step event = some e')
    (hu : Undisturbed e e') : e'.Settled where
  free hn := by
    rw [hu.registry, hu.ends.standing]
    exact h.free (hu.holder.symm.trans hn)
  held holder hh := by
    obtain ⟨op, hi, hpause, hm⟩ := h.held holder (hu.holder.symm.trans hh)
    refine ⟨op, hu.intends hopens hs hi, hpause, ?_⟩
    rw [hu.registry, hu.ends.standing]
    exact hm

end Settled

/-- What is known of an engine with the calls that have been made on it. -/
structure Traced (calls : CallerId → Option Call) (e : Engine) : Prop where
  attained : e.Attained
  opens : e.Opens
  assigned : e.Assigned calls
  told : e.Told calls
  settled : e.Settled

namespace Traced

theorem start (capacity : Nat) (timer : Timer) :
    (Engine.start capacity timer).Traced fun _ => none where
  attained := .start capacity timer
  opens := .start capacity timer
  assigned := .start capacity timer
  told := .start capacity timer
  settled := .start capacity timer

theorem turns (h : e.Traced calls) (hs : e.step event = some e') :
    Undisturbed e e' ∨ ∃ task op p, e.Intends task op ∧ e.Turns event task op p ∧
      e.Performs task op p e' :=
  turns_of_step h.attained.orderly h.settled.intends_of_held hs

theorem step (h : e.Traced calls) (hs : e.step event = some e') :
    e'.Traced fun c => (calls c).or (e.called? c event) where
  attained := h.attained.moves (moves_of_step hs)
  opens := h.opens.step h.attained hs
  assigned := h.assigned.step h.attained h.opens hs
  told := h.told.step h.attained h.assigned h.settled.intends_of_held hs
  settled := by
    obtain hu | ⟨task, op, p, hi, ht, hp⟩ := h.turns hs
    · exact h.settled.undisturbed h.opens hs hu
    · exact .performs (h.settled.follows (h.assigned.isPlain hi) hi ht).2 hp

theorem journal_of_step (h : e.Traced calls) (hs : e.step event = some e') :
    e.journal <:+ e'.journal := by
  obtain hu | ⟨task, op, p, -, -, hp⟩ := h.turns hs
  · obtain ⟨added, hj, -⟩ := hu.ends
    exact hj ▸ List.suffix_append _ _
  · exact hp.journal

theorem run (h : e.Traced calls) (hr : e.run events = some e') :
    e'.Traced fun c => (calls c).or (e.callOf c events) := by
  induction events generalizing e calls with
  | nil =>
    cases hr
    simpa only [callOf, Option.or_none] using h
  | cons event rest ih =>
    obtain ⟨x, hs, hr⟩ := Option.bind_eq_some_iff.1 hr
    simpa only [callOf, hs, Option.bind_some, Option.or_assoc] using ih (h.step hs) hr

theorem journal_of_run (h : e.Traced calls) (hr : e.run events = some e') :
    e.journal <:+ e'.journal := by
  induction events generalizing e calls with
  | nil =>
    cases hr
    exact List.suffix_rfl
  | cons event rest ih =>
    obtain ⟨x, hs, hr⟩ := Option.bind_eq_some_iff.1 hr
    exact (h.journal_of_step hs).trans (ih (h.step hs) hr)

theorem of_run {capacity : Nat} {timer : Timer}
    (hr : (Engine.start capacity timer).run events = some e) :
    e.Traced fun c => (Engine.start capacity timer).callOf c events := by
  simpa only [Option.none_or] using (start capacity timer).run hr

/-- Nothing but additions, removals and the end of a set makes a difference to its members, each for
a caller that has made the call for it. -/
theorem members_of_step (h : e.Traced calls) (hs : e.step event = some e') (s : SetId)
    (unit : String) : (unit ∈ e'.registry.members s ↔ unit ∈ e.registry.members s) ∨
      ∃ c call op p, calls c = some call ∧ call.change? = some op ∧
        (op = .add s unit ∨ op = .remove s unit ∨ op = .detach s none true) ∧
        e.Intends (.caller c) op ∧ e.Turns event (.caller c) op p := by
  have hiff : (unit ∈ e'.registry.members s ↔ unit ∈ e.registry.members s) ↔
      e'.registry.membership s unit = e.registry.membership s unit := by
    rw [Bool.eq_iff_iff, Registry.membership_iff, Registry.membership_iff]
    rfl
  rw [hiff]
  obtain hu | ⟨task, op, p, hi, ht, hp⟩ := h.turns hs
  · exact .inl (by rw [hu.registry])
  · obtain ⟨hbefore, hf⟩ := h.settled.follows (h.assigned.isPlain hi) hi ht
    by_cases hv : op.verdict true s unit = none
    · left
      have hsame (ok : Bool) := op.decides_of_verdict hv ok e.standing
      have hold : e.registry.membership s unit = e.standing s unit := by
        obtain h | h := hbefore <;> rw [h]
        exact hsame false
      rw [hp.registry, hold]
      obtain ⟨r, progress⟩ := p
      cases progress with
      | ask call pause => exact (congrFun (congrFun hf.1 s) unit).trans (hsame false)
      | done result =>
        have hf : r.membership = op.decides result.isOk e.standing := hf
        rw [hf, hsame]
    · have hop := Operation.verdict_true_ne_none_iff.1 hv
      have hchange : op.isChange = true := by
        obtain rfl | rfl | rfl := hop <;> rfl
      obtain ⟨c, rfl, -, call, hc, hcall⟩ := h.assigned.caller_of_intends hi hchange
      exact .inr ⟨c, call, op, p, hc, hcall, hop, hi, ht⟩

end Traced

/-- The last thing that a caller was told from which it follows whether a unit is in a set: that it
was added, or that it was to be removed or the set to be closed, even if that has failed. -/
def lastWord (e : Engine) (calls : CallerId → Option Call) (s : SetId) (unit : String) :
    Option Bool :=
  (e.journal.filterMap (Entry.report? calls)).findSome? (Deed.verdict s unit)

/-- A task is in the middle of an operation that takes a unit out of a set. -/
def Withdraws (e : Engine) (s : SetId) (unit : String) : Prop :=
  ∃ holder op, e.holder = some holder ∧ e.Intends holder.task op ∧
    op.verdict false s unit = some false

theorem not_withdraws (h : e.holder = none) (s : SetId) (unit : String) : ¬e.Withdraws s unit := by
  rintro ⟨holder, op, hholder, -⟩
  cases h.symm.trans hholder

theorem Told.standing (h : e.Told calls) :
    e.standing s unit = (e.lastWord calls s unit).getD false := by
  rw [Engine.standing, h, lastWord]

theorem Traced.mem_iff (h : e.Traced calls) :
    unit ∈ e.registry.members s ↔ e.lastWord calls s unit = some true ∧ ¬e.Withdraws s unit := by
  have hstanding : e.standing s unit = true ↔ e.lastWord calls s unit = some true := by
    rw [h.told.standing]
    cases e.lastWord calls s unit <;> simp
  refine Registry.membership_iff.symm.trans ?_
  cases hh : e.holder with
  | none =>
    rw [h.settled.free hh, hstanding, and_iff_left (not_withdraws hh s unit)]
  | some holder =>
    obtain ⟨op, hi, -, hm⟩ := h.settled.held holder hh
    have hw : e.Withdraws s unit ↔ op.verdict false s unit = some false := by
      constructor
      · rintro ⟨holder', op', hholder, hi', hv⟩
        cases hh.symm.trans hholder
        rwa [hi.unique hi']
      · exact fun hv => ⟨holder, op, hh, hi, hv⟩
    rw [hm, hw, Operation.decides, ← hstanding]
    obtain hv | hv := op.verdict_false s unit <;> simp [hv]

theorem Traced.mem_iff_of_free (h : e.Traced calls) (hh : e.holder = none) :
    unit ∈ e.registry.members s ↔ e.lastWord calls s unit = some true :=
  h.mem_iff.trans (and_iff_left (not_withdraws hh s unit))

end Engine

end UnitControl
