import UnitControl.Proofs.Engine.Fate

/-!
# Callers that give up

A caller that gives up on its job does so for itself alone. Up to then the run is the one in which
it waits without a limit, and from then on it is that run for everybody else. But a caller may find
its time over before it has sent its request, and then its job is never called.
-/

namespace UnitControl

/-- The request of a call with a limit, the limit, and how long ago the caller has set its timer. -/
def Call.timed? : Call → Option (JobRequest × Duration × Nat)
  | submit request (some d) => some (request, d, 0)
  | submitLate request d ago _ => some (request, d, ago)
  | _ => none

/-- A wait that begins at `start` is over at `now`, and has lasted `d` if the timer is never
early. -/
structure Timer.Elapsed (timer : Timer) (start : Nat) (d : Duration) (now : Nat) : Prop where
  due : timer start d ≤ now
  time : timer.NeverEarly → start + d.nanos ≤ now

theorem Timer.elapsed_iff {timer : Timer} {start now : Nat} {d : Duration} :
    timer.Elapsed start d now ↔ timer start d ≤ now :=
  ⟨Elapsed.due, fun h => ⟨h, fun hn => Nat.le_trans (hn start d) h⟩⟩

/-- What a caller gets that gives up. -/
def timedOut (request : JobRequest) (d : Duration) : Answer :=
  .job (.error (.jobTimeout request.unit d))

namespace Act

def expires (c : CallerId) : Act → Bool
  | event (.expire id) => id == c
  | _ => false

def leaves (c : CallerId) : Act → Bool
  | event (.leave id) => id == c
  | _ => false

theorem expires_iff {c : CallerId} {a : Act} : a.expires c = true ↔ a = .event (.expire c) := by
  unfold expires
  split
  · simp
  · rename_i hne
    refine ⟨fun h => (by cases h), fun h => absurd h (hne c)⟩

theorem leaves_iff {c : CallerId} {a : Act} : a.leaves c = true ↔ a = .event (.leave c) := by
  unfold leaves
  split
  · simp
  · rename_i hne
    refine ⟨fun h => (by cases h), fun h => absurd h (hne c)⟩

end Act

namespace Engine

/-- The same acts without the caller's giving up. The answer that it got then is not there for it to
leave with. -/
def untimed (c : CallerId) : List Act → List Act
  | [] => []
  | a :: rest => if a.expires c then rest.filter fun b => !b.leaves c else a :: untimed c rest

theorem untimed_append_of_patient {c : CallerId} {l : List Act}
    (h : ∀ a ∈ l, a.expires c = false) (l' : List Act) :
    untimed c (l ++ l') = l ++ untimed c l' := by
  induction l with
  | nil => rfl
  | cons a rest ih =>
    have ha : ¬a.expires c = true := by simp [h a List.mem_cons_self]
    rw [List.cons_append, untimed, if_neg ha, ih fun b hb => h b (List.mem_cons_of_mem _ hb)]
    rfl

theorem untimed_of_patient {c : CallerId} {l : List Act} (h : ∀ a ∈ l, a.expires c = false) :
    untimed c l = l := by
  simpa [untimed] using untimed_append_of_patient h []

theorem untimed_isPrefix (c : CallerId) {l l' : List Act} (h : l <+: l') :
    untimed c l <+: untimed c l' := by
  obtain ⟨l', rfl⟩ := h
  induction l with
  | nil => exact List.nil_prefix
  | cons a rest ih =>
    rw [List.cons_append, untimed, untimed]
    split
    · exact ⟨_, (List.filter_append ..).symm⟩
    · exact List.cons_prefix_cons.2 ⟨rfl, ih⟩

/-- Either the caller does not give up, or there is a first time that it does. -/
theorem patient_or_expires (c : CallerId) (l : List Act) :
    (∀ a ∈ l, a.expires c = false) ∨ ∃ before after, l = before ++ .event (.expire c) :: after ∧
      ∀ a ∈ before, a.expires c = false := by
  induction l with
  | nil => exact .inl (by simp)
  | cons a rest ih =>
    cases ha : a.expires c with
    | true => exact .inr ⟨[], rest, by rw [Act.expires_iff.1 ha]; rfl, by simp⟩
    | false =>
      obtain h | ⟨before, after, rfl, h⟩ := ih
      · exact .inl (List.forall_mem_cons.2 ⟨ha, h⟩)
      · exact .inr ⟨a :: before, after, rfl, List.forall_mem_cons.2 ⟨ha, h⟩⟩

variable {c : CallerId} {hidden : Bool} {e e' x y : Engine}

theorem veil_veil (e : Engine) : (e.veil c false).veil c true = e.veil c true := by
  have hcallers : (e.callers.filterMap (Wait.seen c false)).filterMap (Wait.seen c true) =
      e.callers.filterMap (Wait.seen c true) := by
    refine Table.ext_entries ?_
    simp only [Table.filterMap, List.filterMap_filterMap]
    refine List.filterMap_congr fun entry _ => ?_
    by_cases hid : entry.1 = c <;> simp [Wait.seen, hid]
  simp [veil, hcallers]

theorem record_veil (e : Engine) :
    (e.veil c hidden).record = e.record.filter fun entry => !(hidden && entry.answers c) := by
  simp only [record, veil, List.filter_filter, Bool.and_comm]

theorem told_veil {α : Type} {f : Entry → Option α} (hf : ∀ a, f (.answered c a) = none)
    (e : Engine) : told f (e.veil c hidden).record = told f e.record := by
  rw [record_veil, told, told, List.filterMap_filter]
  congr 1
  refine List.filterMap_congr fun entry _ => ?_
  cases ha : entry.answers c with
  | false => simp
  | true =>
    obtain ⟨a, rfl⟩ := Entry.answers_eq_true_iff.1 ha
    rw [hf, ite_self]

theorem veil_of_absent (h : e.callers.get? c = none) : e.veil c false = e := by
  have hcallers : e.callers.filterMap (Wait.seen c false) = e.callers := by
    refine Table.filterMap_eq_self fun entry hm => seen_of_ne ?_ _
    rintro rfl
    rw [Table.get?_eq_some_iff.2 hm] at h
    cases h
  simp [veil, hcallers]

theorem told_of_veil {α : Type} {f : Entry → Option α} (hf : ∀ a, f (.answered c a) = none)
    (h : e'.veil c true = e.veil c true) : told f e'.record = told f e.record :=
  calc told f e'.record
    _ = told f (e'.veil c true).record := (told_veil hf e').symm
    _ = told f (e.veil c true).record := by rw [h]
    _ = told f e.record := told_veil hf e

theorem act_of_perform {a : Act} (hp : e.perform? a = some e')
    (hd : e'.dispatcher.commands = e.dispatcher.commands) (hh : e'.handle = true) :
    e.act a = some e' := by
  have hs : e.startles e' = false := by simp [startles, hd, reachable_of_handle hh]
  rw [act_eq, hp, Option.map_some, hs]
  rfl

theorem handle_of_answer (hh : e.handle = true) (id : CallerId) (a : Answer) :
    (e.answer id a).handle = true :=
  (congrArg Prod.fst (SameBearings.keptByRoutine.answer e id a)).trans hh

theorem commands_answer (e : Engine) (id : CallerId) (a : Answer) :
    (e.answer id a).dispatcher.commands = e.dispatcher.commands := by
  rw [dispatcher_answer]

theorem act_expire {time : Nat} {err : Error}
    (hw : e.callers.get? c = some (.job (some (time, err)))) (ht : time ≤ e.clock.now)
    (hh : e.handle = true) :
    e.act (.event (.expire c)) = some (e.answer c (.job (.error err))) :=
  act_of_perform (by simp [perform?, react, expire?, hw, ht]) (commands_answer e c _)
    (handle_of_answer hh c _)

theorem act_expire_cases (h : e.act (.event (.expire c)) = some e') (hh : e.handle = true) :
    ∃ time err, e.callers.get? c = some (.job (some (time, err))) ∧ time ≤ e.clock.now ∧
      e' = e.answer c (.job (.error err)) := by
  obtain ⟨z, hz, -⟩ := Option.map_eq_some_iff.1 ((act_eq _ _).symm.trans h)
  simp only [perform?, react, expire?] at hz
  split at hz
  · rename_i time err hw
    split at hz
    · rw [act_expire hw ‹_› hh] at h
      exact ⟨time, err, hw, ‹_›, (Option.some.inj h).symm⟩
    · cases hz
  · cases hz

theorem veil_answer_self (e : Engine) (a : Answer) :
    (e.answer c a).veil c true = e.veil c true := by
  rw [veil_answer]
  have hnone : (e.veil c true).callers.get? c = none := by
    rw [get?_veil_self]
    cases e.callers.get? c <;> rfl
  exact if_neg (by simp [Table.contains, hnone])

theorem veil_of_leave (h : e.act (.event (.leave c)) = some e') (hh : e.handle = true) :
    e'.veil c true = e.veil c true := by
  obtain ⟨z, hz, -⟩ := Option.map_eq_some_iff.1 ((act_eq _ _).symm.trans h)
  have hp := hz
  simp only [perform?, react] at hz
  split at hz
  · cases hz
    rw [act_of_perform hp rfl hh] at h
    cases h
    have hleaving : (e.leaving.erase c).filter (fun id => !(true && id == c)) =
        e.leaving.filter fun id => !(true && id == c) := by
      rw [← List.erase_filter, List.erase_of_not_mem (by simp)]
    simp only [veil, hleaving]
  · cases hz

/-- The end of a job for which the caller no longer waits is taken out of the table, and that is
all. -/
theorem act_takeSignal_of_absent {item : Except Error Signal} {rest : List (Except Error Signal)}
    {path : String} {output : JobOutput} (hw : e.callers.get? c = none) (hh : e.handle = true)
    (hs : e.dispatcher.stage = .idle) (hi : e.dispatcher.signals = item :: rest)
    (hr : Signal.reported? item = some (path, output))
    (hp : e.dispatcher.pending.get? path = some c) :
    e.act (.event .takeSignal) = some ({ e with dispatcher := { e.dispatcher with
      signals := rest
      pending := e.dispatcher.pending.erase path } }.note (.tookSignal item)) := by
  let d : Dispatcher :=
    { e.dispatcher with signals := rest, pending := e.dispatcher.pending.erase path }
  have hturn : e.dispatcher.takeSignal? = some (d, [(c, .job (.ok output))]) := by
    simp only [Dispatcher.takeSignal?, hs, hi, Dispatcher.route_of_reported hr,
      Dispatcher.resolve, hp, d]
  have hnobody : (e.note (.tookSignal item)).dispatch (d, [(c, .job (.ok output))]) =
      { e with dispatcher := d }.note (.tookSignal item) :=
    if_neg (by simp [Table.contains, note, hw])
  have hstage : d.stage = .idle := hs
  refine act_of_perform ?_ rfl hh
  simp only [perform?, react, takeSignal?, hi, hturn, Option.map_some, hnobody]
  simp only [askTargets, note, hstage]
  rfl

theorem permits_of_timed {call : Call} {request : JobRequest} {d : Duration} {ago : Nat}
    (hc : call.timed? = some (request, d, ago)) (e : Engine) : e.permits call = e.handle := by
  cases call <;> first | rfl | cases hc

/-- A caller with a limit has its answer at once if it finds that its time is over, and otherwise
sends its request. -/
theorem call_of_timed {call : Call} {request : JobRequest} {d : Duration} {ago : Nat}
    (hc : call.timed? = some (request, d, ago)) (hd : d ≠ .zero) (e : Engine) (id : CallerId) :
    (call.isLate e.clock = true → e.clock.dueSince ago d ≤ e.clock.now ∧
      e.call id call = e.note (.answered id (timedOut request d))) ∧
    (call.isLate e.clock = false → e.call id call =
      e.submit id request (some (e.clock.dueSince ago d, .jobTimeout request.unit d))) := by
  cases call with
  | submit request' limit =>
    cases limit with
    | none => cases hc
    | some d' =>
      cases hc
      refine ⟨fun h => (by cases h), fun _ => ?_⟩
      simp only [Engine.call, submitWithin, if_neg hd, Bool.false_and, Bool.false_eq_true,
        if_false]
  | submitLate request' d' ago' looks =>
    cases hc
    refine ⟨fun h => ?_, fun h => ?_⟩ <;> simp only [Call.isLate] at h
    · refine ⟨of_decide_eq_true (Bool.and_eq_true_iff.1 h).2, ?_⟩
      simp only [Engine.call, submitWithin, if_neg hd, h, if_true]
      rfl
    · simp only [Engine.call, submitWithin, if_neg hd, h, Bool.false_eq_true, if_false]
  | _ => cases hc

theorem act_call {call : Call} (hp : x.permits call = true) {z : Engine}
    (hz : { x with fresh := x.fresh + 1 }.call x.fresh call = z) :
    x.act (.event (.call call)) = some (z.startleIf (x.startles z)) := by
  have hperform : x.perform? (.event (.call call)) = some z := by
    rw [← hz]
    exact if_pos hp
  rw [act_eq, hperform]
  rfl

theorem eq_fresh_of_submitted {a : Act} {request : JobRequest} (h : (c, request) ∈ e.submitted a) :
    c = e.fresh := by
  unfold submitted at h
  split at h
  · split at h
    · cases h
    · obtain ⟨request', -, hr⟩ := Option.map_eq_some_iff.1 (Option.mem_toList.1 h)
      exact (congrArg Prod.fst hr).symm
  · cases h

theorem unsent_of_acts {capacity : Nat} {timer : Timer} {before l : List Act}
    (hx : (start capacity timer).acts before = some x) (hc : c < x.fresh)
    (hn : ∀ request, (c, request) ∉ submissions x.record) (h : x.acts l = some y) :
    c < y.fresh ∧ ∀ request, (c, request) ∉ submissions y.record := by
  induction l using List.reverseRecOn generalizing y with
  | nil =>
    cases h
    exact ⟨hc, hn⟩
  | append_singleton l a ih =>
    obtain ⟨z, hz, ha⟩ := acts_concat.1 h
    obtain ⟨hcz, hnz⟩ := ih hz
    have hy : (start capacity timer).acts (before ++ (l ++ [a])) = some y := by
      rw [acts_append, hx]
      exact h
    refine ⟨Nat.lt_of_lt_of_le hcz (fresh_le_of_act ha), fun request hm => ?_⟩
    rw [submissions_of_act ha (visited_of_acts hy).attends] at hm
    obtain hm | hm := List.mem_append.1 hm
    · exact hnz request hm
    · exact Nat.ne_of_lt hcz (eq_fresh_of_submitted hm)

/-- A caller that finds its time over has its answer at once, and its job is never called. -/
theorem acts_of_late {capacity : Nat} {timer : Timer} {before : List Act} {call : Call}
    {request : JobRequest} {d : Duration} {ago : Nat}
    (hx : (start capacity timer).acts before = some x) (hh : x.handle = true)
    (hc : call.timed? = some (request, d, ago)) (hd : d ≠ .zero)
    (hl : call.isLate x.clock = true) :
    let z := { x with fresh := x.fresh + 1 }.note (.answered x.fresh (timedOut request d))
    x.act (.event (.call call)) = some z ∧ x.clock.dueSince ago d ≤ x.clock.now ∧
      ∀ l y, z.acts l = some y → ∀ request', (x.fresh, request') ∉ jobCalls y.record := by
  intro z
  obtain ⟨hover, hcall⟩ := (call_of_timed hc hd { x with fresh := x.fresh + 1 } x.fresh).1 hl
  have hact : x.act (.event (.call call)) = some z :=
    act_of_perform ((if_pos ((permits_of_timed hc x).trans hh)).trans (congrArg some hcall)) rfl hh
  refine ⟨hact, hover, fun l y hy request' hm => ?_⟩
  have hz : (start capacity timer).acts (before ++ [.event (.call call)]) = some z :=
    acts_concat.2 ⟨x, hx, hact⟩
  have hunsent : ∀ request, (x.fresh, request) ∉ submissions z.record := by
    intro request hm
    rw [submissions_refuse] at hm
    have hsent := ((visited_of_acts hx).attends.sent _ (mem_submissions.1 hm)).1
    exact Nat.lt_irrefl _ hsent
  have hwhole : (start capacity timer).acts ((before ++ [.event (.call call)]) ++ l) = some y := by
    rw [acts_append, hz]
    exact hy
  obtain ⟨queued, hin, -⟩ := (visited_of_acts hwhole).callsInOrder
  refine (unsent_of_acts hz (Nat.lt_succ_self _) hunsent hy).2 request' ?_
  rw [hin.queue]
  exact List.mem_append_left _ hm

theorem submit_veil (h : e.callers.get? c = none) (request : JobRequest)
    (limit : Option (Nat × Error)) :
    (e.submit c request limit).veil c false = e.submit c request none := by
  have hself : e.veil c false = e := veil_of_absent h
  have hawait (w : Wait) : (e.await c w).veil c false = e.await c (.job none) := by
    have hput := Table.filterMap_put (t := e.callers) (f := Wait.seen c false) (k := c)
      (g := fun _ => .job none) (fun _ => if_pos rfl) w
    have hcallers : e.callers.filterMap (Wait.seen c false) = e.callers :=
      congrArg Engine.callers hself
    rw [hcallers] at hput
    simp [veil, await, hput]
  unfold submit
  split
  · exact veil_of_absent h
  · exact (veil_send _ _).trans (congrArg (send · _) (hawait _))

/-- With and without a limit a call begins alike, if its time is not over. With one its caller has
no answer as long as it waits, and waits up to the end of its time. -/
theorem act_untimed {call : Call} {request : JobRequest} {d : Duration} {ago : Nat}
    (hc : call.timed? = some (request, d, ago)) (hd : d ≠ .zero)
    (hl : call.isLate x.clock = false) (hn : x.callers.get? x.fresh = none)
    (hh : y.handle = true) (h : x.act (.event (.call call)) = some y) :
    x.act (.event (.call (.submit request none))) = some (y.veil x.fresh false) ∧
      x.fresh < y.fresh ∧
      ∀ w, y.callers.get? x.fresh = some w →
        w = .job (some (x.clock.dueSince ago d, .jobTimeout request.unit d)) ∧
        replies x.fresh y.record = replies x.fresh x.record := by
  have hself : x.veil x.fresh false = x := veil_of_absent hn
  have hx : x.handle = true := (onward_of_act h).handle hh
  have hcall := (call_of_timed hc hd { x with fresh := x.fresh + 1 } x.fresh).2 hl
  rw [act_call ((permits_of_timed hc x).trans hx) hcall] at h
  obtain rfl := Option.some.inj h
  rw [handle_startleIf] at hh
  have hstart : (x.veil x.fresh false).startles (veil x.fresh false _) = _ := startles_veil hh
  have halike (z : Engine) (b : Bool) : Alike z (z.startleIf b) := alike_startleIf z b
  refine ⟨?_, ?_, fun w hw => ?_⟩
  · rw [hself] at hstart
    rw [veil_startleIf, ← hstart]
    have hpermits : x.permits (.submit request none) = true := hx
    exact act_call hpermits (submit_veil (e := { x with fresh := x.fresh + 1 }) hn _ _).symm
  · rw [(halike _ _).fresh]
    unfold submit
    split <;> exact Nat.lt_succ_self _
  · rw [(halike _ _).callers] at hw
    rw [(halike _ _).record]
    unfold submit at hw ⊢
    split at hw
    · exact absurd (hn.symm.trans hw) (by simp)
    · rw [if_neg ‹_›]
      refine ⟨Option.some.inj (hw.symm.trans (Table.get?_put_self ..)), ?_⟩
      rw [send, record_note]
      exact told_cons_none rfl _

/-- As long as the caller does not give up, the limit shows in nothing. -/
theorem acts_veil {l : List Act} (hc : c < e.fresh) (hj : e.AwaitsJob c)
    (hl : ∀ a ∈ l, a.expires c = false) (hh : e'.handle = true) (h : e.acts l = some e') :
    (e.veil c false).acts l = some (e'.veil c false) := by
  induction l generalizing e with
  | nil =>
    cases h
    rfl
  | cons a rest ih =>
    obtain ⟨x, ha, hrest⟩ := Option.bind_eq_some_iff.1 h
    obtain ⟨hx, hcx⟩ := Fate.act ha hc hj
    obtain ⟨hpatient, hl⟩ := List.forall_mem_cons.1 hl
    have hxv : (x.veil c false).handle = true := (onward_of_acts hrest).handle hh
    have hexpire : a ≠ .event (.expire c) := fun h => by
      rw [Act.expires_iff.2 h] at hpatient
      cases hpatient
    have hseen : false = true → a ≠ .event (.leave c) ∧ a ≠ .vanish c := fun h => by cases h
    have hact : (e.veil c false).act a = some (x.veil c false) :=
      (act_veil_iff hc hj hxv hexpire hseen).2 ⟨x, ha, rfl⟩
    exact Option.bind_eq_some_iff.2 ⟨_, hact, ih hcx (hx.awaitsJob hj) hl hrest⟩

/-- Once the caller waits no more in the one run, the other goes on in the same way, whatever the
caller waits for in it. -/
theorem acts_hidden {l : List Act} (hc : c < e.fresh) (hw : e.callers.get? c = none)
    (hj : x.AwaitsJob c) (hv : x.veil c true = e.veil c true) (hh : e'.handle = true)
    (h : e.acts l = some e') :
    ∃ y, x.acts (l.filter fun a => !a.leaves c) = some y ∧ y.veil c true = e'.veil c true := by
  induction l generalizing e x with
  | nil =>
    cases h
    exact ⟨x, rfl, hv⟩
  | cons a rest ih =>
    obtain ⟨z, ha, hrest⟩ := Option.bind_eq_some_iff.1 h
    have hz : z.handle = true := (onward_of_acts hrest).handle hh
    have hj' : e.AwaitsJob c := fun w h => (by rw [hw] at h; cases h)
    obtain ⟨hfate, hcz⟩ := Fate.act ha hc hj'
    have hwz := (hfate.absent hw).1
    cases hleaves : a.leaves c with
    | true =>
      obtain rfl := Act.leaves_iff.1 hleaves
      rw [List.filter_cons_of_neg (by simp [hleaves])]
      exact ih hcz hwz hj (hv.trans (veil_of_leave ha ((onward_of_act ha).handle hz)).symm) hrest
    | false =>
      rw [List.filter_cons_of_pos (by simp [hleaves])]
      have hexpire : a ≠ .event (.expire c) := by
        rintro rfl
        obtain ⟨time, err, hw', -⟩ := act_expire_cases ha ((onward_of_act ha).handle hz)
        rw [hw] at hw'
        cases hw'
      have hothers : true = true → a ≠ .event (.leave c) ∧ a ≠ .vanish c := by
        refine fun _ => ⟨fun h => ?_, ?_⟩
        · rw [Act.leaves_iff.2 h] at hleaves
          cases hleaves
        · rintro rfl
          simp [act, vanish?, hw] at ha
      have hzv : (z.veil c true).handle = true := hz
      have hact : (x.veil c true).act a = some (z.veil c true) := by
        rw [hv]
        exact (act_veil_iff hc hj' hzv hexpire hothers).2 ⟨z, ha, rfl⟩
      have hcx : c < x.fresh := Nat.lt_of_lt_of_eq hc (congrArg Engine.fresh hv).symm
      obtain ⟨y, hy, hyz⟩ := (act_veil_iff hcx hj hzv hexpire hothers).1 hact
      obtain ⟨s, hs, hsv⟩ := ih hcz hwz ((Fate.act hy hcx hj).1.awaitsJob hj) hyz hrest
      exact ⟨s, Option.bind_eq_some_iff.2 ⟨y, hy, hs⟩, hsv⟩

/-- The caller gives up in the one run, at `time` or later; in the other it waits on. -/
theorem acts_of_expire {before after : List Act} {time : Nat} {err : Error} (hc : c < x.fresh)
    (hw : ∀ w, x.callers.get? c = some w →
      w = .job (some (time, err)) ∧ replies c x.record = [])
    (hb : ∀ a ∈ before, a.expires c = false) (hh : y.handle = true)
    (h : x.acts (before ++ .event (.expire c) :: after) = some y) :
    ∃ y', (x.veil c false).acts (before ++ after.filter fun a => !a.leaves c) = some y' ∧
      y'.veil c true = y.veil c true ∧ y.callers.get? c = none ∧ time ≤ y.clock.now ∧
      replies c y.record = [.job (.error err)] := by
  have hj : x.AwaitsJob c := fun w h => ⟨_, (hw w h).1⟩
  rw [acts_append] at h
  obtain ⟨z, hz, h⟩ := Option.bind_eq_some_iff.1 h
  obtain ⟨z', hexpire, hafter⟩ := Option.bind_eq_some_iff.1 h
  have hh' : z'.handle = true := (onward_of_acts hafter).handle hh
  have hhz : z.handle = true := (onward_of_act hexpire).handle hh'
  obtain ⟨hfate, hcz⟩ := Fate.acts hz hc hj
  obtain ⟨time', err', hwz, ht, rfl⟩ := act_expire_cases hexpire hhz
  obtain ⟨hwx, hreplies⟩ := hfate.waits _ hwz
  obtain ⟨hlimit, hnone⟩ := hw _ hwx
  cases hlimit
  have hgone : (z.answer c (.job (.error err))).callers.get? c = none := by
    rw [get?_callers_answer, if_pos rfl]
  have hcz' : c < (z.answer c (.job (.error err))).fresh := by rwa [fresh_answer]
  have hsame : (z.veil c false).veil c true = (z.answer c (.job (.error err))).veil c true :=
    (veil_veil z).trans (veil_answer_self z _).symm
  obtain ⟨y', hy', hv⟩ := acts_hidden hcz' hgone (awaitsJob_veil z c false) hsame hh hafter
  have hnow := Nat.le_trans (onward_of_act hexpire).now (onward_of_acts hafter).now
  have hrest := (Fate.acts hafter hcz' fun w h => (by rw [hgone] at h; cases h)).1.absent hgone
  refine ⟨y', ?_, hv, hrest.1, Nat.le_trans ht hnow, ?_⟩
  · rw [acts_append, acts_veil hc hj hb hhz hz]
    exact hy'
  · rw [hrest.2, replies_answer hwz, hreplies, hnone]
    rfl

/-- A number that is still to be given out waits for nothing, and nobody has answered it. -/
theorem absent_of_acts {capacity : Nat} {timer : Timer} {l : List Act}
    (h : (start capacity timer).acts l = some e) :
    e.callers.get? e.fresh = none ∧ replies e.fresh e.record = [] := by
  have hattends := (visited_of_acts h).attends
  constructor
  · cases hw : e.callers.get? e.fresh with
    | none => rfl
    | some w => exact absurd (hattends.waits_lt _ w hw) (Nat.lt_irrefl _)
  · refine told_eq_nil fun entry hm => ?_
    cases entry with
    | answered id a => exact Entry.answerTo?_of_ne (Nat.ne_of_lt (hattends.answered_lt id a hm)) a
    | _ => rfl

/-- Behind the veil is nothing of the dispatcher, of the calls on the bus, or of anybody else's
answers. -/
theorem same_of_veil (h : e'.veil c true = e.veil c true) :
    e'.dispatcher = e.dispatcher ∧ jobCalls e'.record = jobCalls e.record ∧
      ∀ id, id ≠ c → replies id e'.record = replies id e.record := by
  have hd : (e'.veil c true).dispatcher = (e.veil c true).dispatcher := by rw [h]
  exact ⟨hd, told_of_veil (fun _ => rfl) h,
    fun id hid => told_of_veil (Entry.answerTo?_of_ne (Ne.symm hid)) h⟩

/-- A caller that waits for its job no longer than `d`, which is not zero, and has set its timer
some time ago, in a run in which the handle is held. If it finds its time over before it has sent
its request, it is told of the timeout at once, nobody else notices, and its job is never called.
Otherwise compare with the run in which it waits without a limit, with the same acts but its own
giving up and its leaving after that. The two are at any time the same to everybody else: the
dispatcher with its table, the job calls, what all others get and wait for. The caller has what it
has in the other run, or else it was told of the timeout, and that not before the timer was over.
From then on its job is taken out of the table when its end is reported, and nobody gets it. Once
its time has come a caller that still waits can give up. -/
theorem acts_time_out {capacity : Nat} {timer : Timer} {before after : List Act} {x e : Engine}
    {call : Call} {request : JobRequest} {d : Duration} {ago : Nat}
    (hx : (start capacity timer).acts before = some x)
    (hc : call.timed? = some (request, d, ago)) (hd : d ≠ .zero)
    (h : x.acts (.event (.call call) :: after) = some e) (hh : e.handle = true) :
    (call.isLate x.clock = true →
      let z := { x with fresh := x.fresh + 1 }.note (.answered x.fresh (timedOut request d))
      timer.Elapsed (x.clock.now - ago) d x.clock.now ∧ x.act (.event (.call call)) = some z ∧
        ∀ l y, z.acts l = some y → ∀ request', (x.fresh, request') ∉ jobCalls y.record) ∧
    (call.isLate x.clock = false → ∀ l, l <+: after →
      untimed x.fresh l <+: untimed x.fresh after ∧
      ∃ y y', x.acts (.event (.call call) :: l) = some y ∧
        x.acts (.event (.call (.submit request none)) :: untimed x.fresh l) = some y' ∧
        y'.veil x.fresh true = y.veil x.fresh true ∧
        y'.dispatcher = y.dispatcher ∧
        jobCalls y'.record = jobCalls y.record ∧
        (∀ id, id ≠ x.fresh → replies id y'.record = replies id y.record) ∧
        ((y' = y.veil x.fresh false ∧ replies x.fresh y.record = replies x.fresh y'.record) ∨
          (replies x.fresh y.record = [timedOut request d] ∧
            timer.Elapsed (x.clock.now - ago) d y.clock.now ∧
            ∀ item rest path output, y.dispatcher.stage = .idle →
              y.dispatcher.signals = item :: rest →
              Signal.reported? item = some (path, output) →
              y.dispatcher.pending.get? path = some x.fresh →
              y.act (.event .takeSignal) = some ({ y with dispatcher := { y.dispatcher with
                signals := rest
                pending := y.dispatcher.pending.erase path } }.note (.tookSignal item)))) ∧
        ∀ w, y.callers.get? x.fresh = some w → timer (x.clock.now - ago) d ≤ y.clock.now →
          ∃ z, y.act (.event (.expire x.fresh)) = some z ∧
            replies x.fresh z.record = [timedOut request d]) := by
  obtain ⟨s, hs, hrun⟩ := Option.bind_eq_some_iff.1 h
  have hhs : s.handle = true := (onward_of_acts hrun).handle hh
  have htimer : x.clock.timer = timer := (onward_of_acts hx).timer
  have hdue : x.clock.dueSince ago d = timer (x.clock.now - ago) d := by
    rw [Clock.dueSince, htimer]
  refine ⟨fun hl => ?_, fun hl l hprefix => ⟨untimed_isPrefix x.fresh hprefix, ?_⟩⟩
  · obtain ⟨hact, hover, hnever⟩ := acts_of_late hx ((onward_of_act hs).handle hhs) hc hd hl
    exact ⟨Timer.elapsed_iff.2 (hdue ▸ hover), hact, hnever⟩
  obtain ⟨later, rfl⟩ := hprefix
  obtain ⟨hn, hnone⟩ := absent_of_acts hx
  rw [acts_append] at hrun
  obtain ⟨y, hy, hlater⟩ := Option.bind_eq_some_iff.1 hrun
  have hhy : y.handle = true := (onward_of_acts hlater).handle hh
  obtain ⟨hbegin, hcs, hw⟩ := act_untimed hc hd hl hn hhs hs
  rw [hnone, hdue] at hw
  have hj : s.AwaitsJob x.fresh := fun w h => ⟨_, (hw w h).1⟩
  have htimed : x.acts (.event (.call call) :: l) = some y :=
    Option.bind_eq_some_iff.2 ⟨s, hs, hy⟩
  have hpatience : ∀ w, y.callers.get? x.fresh = some w →
      timer (x.clock.now - ago) d ≤ y.clock.now →
      ∃ z, y.act (.event (.expire x.fresh)) = some z ∧
        replies x.fresh z.record = [timedOut request d] := fun w hwy ht => by
    obtain ⟨hws, hreplies⟩ := (Fate.acts hy hcs hj).1.waits w hwy
    obtain ⟨rfl, hnone⟩ := hw w hws
    refine ⟨_, act_expire hwy ht hhy, ?_⟩
    rw [replies_answer hwy, hreplies, hnone]
    rfl
  obtain hpatient | ⟨earlier, rest, rfl, hpatient⟩ := patient_or_expires x.fresh l
  · obtain ⟨hdispatcher, hcalls, hreplies⟩ := same_of_veil (veil_veil (c := x.fresh) y)
    refine ⟨y, y.veil x.fresh false, htimed, ?_, veil_veil y, hdispatcher, hcalls, hreplies,
      .inl ⟨rfl, ?_⟩, hpatience⟩
    · rw [untimed_of_patient hpatient]
      exact Option.bind_eq_some_iff.2 ⟨_, hbegin, acts_veil hcs hj hpatient hhy hy⟩
    · simp [record_veil]
  · obtain ⟨y', hy', hv, hgone, htime, hanswer⟩ := acts_of_expire hcs hw hpatient hhy hy
    obtain ⟨hdispatcher, hcalls, hreplies⟩ := same_of_veil hv
    refine ⟨y, y', htimed, ?_, hv, hdispatcher, hcalls, hreplies,
      .inr ⟨hanswer, Timer.elapsed_iff.2 htime, ?_⟩, hpatience⟩
    · rw [untimed_append_of_patient hpatient, untimed, if_pos (Act.expires_iff.2 rfl)]
      exact Option.bind_eq_some_iff.2 ⟨_, hbegin, hy'⟩
    · intro item rest' path output hstage hi hr hp
      exact act_takeSignal_of_absent hgone hhy hstage hi hr hp

/-- The caller with number 1 gives up while its job is pending. The job ends later, and so does that
of the caller with number 0. -/
def overtaken : List Act :=
  [.event .takeCommand, .event (.jobReturned (.ok "/job/1")), .event .takeCommand,
    .event (.jobReturned (.ok "/job/2")), .event (.tick 5 5), .event (.expire 1), .event (.leave 1),
    .event (.call .pendingJobs), .event .takeCommand,
    .event (.signal (.ok (.jobRemoved 2 "/job/2" "b.service" "done"))), .event .takeSignal,
    .event (.signal (.ok (.jobRemoved 1 "/job/1" "a.service" "failed"))), .event .takeSignal]

/-- A caller gives up on its job and nobody else notices. Another one has set its timer before it
sends its request, and looks at it first. -/
theorem acts_time_out_overtaken :
    (∃ x y y', (start 1 .exact).acts [.event (.call (.job .start "a" .replace))] = some x ∧
      x.acts (.event (.call (.submit ⟨"StopUnit", ["b.service", "fail"]⟩ (some ⟨5⟩))) ::
        overtaken) = some y ∧
      x.acts (.event (.call (.submit ⟨"StopUnit", ["b.service", "fail"]⟩ none)) ::
        untimed 1 overtaken) = some y' ∧
      replies 1 y.record = [.job (.error (.jobTimeout "b.service" ⟨5⟩))] ∧
      replies 1 y'.record = [.job (.ok .done)] ∧
      replies 0 y'.record = replies 0 y.record ∧ replies 0 y.record = [.job (.ok .failed)] ∧
      replies 2 y'.record = replies 2 y.record ∧ replies 2 y.record = [.pending (.ok 2)] ∧
      y'.dispatcher = y.dispatcher ∧ x.clock.now + 5 ≤ y.clock.now) ∧
    ∃ x z y', (start 1 .exact).acts [.event (.tick 1 1)] = some x ∧
      x.acts [.event (.call (.submitLate ⟨"StopUnit", ["b.service", "fail"]⟩ ⟨1⟩ 1 true))] =
        some z ∧
      replies 0 z.record = [.job (.error (.jobTimeout "b.service" ⟨1⟩))] ∧
      (∀ l y, z.acts l = some y → ∀ request, (0, request) ∉ jobCalls y.record) ∧
      x.acts [.event (.call (.submit ⟨"StopUnit", ["b.service", "fail"]⟩ none)),
        .event .takeCommand] = some y' ∧
      jobCalls y'.record = [(0, ⟨"StopUnit", ["b.service", "fail"]⟩)] := by
  constructor
  · obtain ⟨x, hx⟩ : ∃ x, (start 1 .exact).acts [.event (.call (.job .start "a" .replace))] =
        some x := ⟨_, rfl⟩
    obtain ⟨e, he, hh⟩ : ∃ e, x.acts (.event (.call (.submit ⟨"StopUnit", ["b.service", "fail"]⟩
        (some ⟨5⟩))) :: overtaken) = some e ∧ e.handle = true := by
      cases hx
      exact ⟨_, rfl, rfl⟩
    have hfresh : x.fresh = 1 := by
      cases hx
      rfl
    obtain ⟨-, hearly⟩ := acts_time_out hx rfl (by decide) he hh
    obtain ⟨-, y, y', hy, hy', -, hd, -, hothers, hown, -⟩ :=
      hearly rfl overtaken List.prefix_rfl
    rw [hfresh] at hy' hothers hown
    have hanswers : replies 1 y.record = [.job (.error (.jobTimeout "b.service" ⟨5⟩))] ∧
        replies 1 y'.record = [.job (.ok .done)] ∧ replies 0 y.record = [.job (.ok .failed)] ∧
        replies 2 y.record = [.pending (.ok 2)] := by
      cases hx
      cases hy
      cases hy'
      exact ⟨rfl, rfl, rfl, rfl⟩
    obtain ⟨hlate, htwin, hfailed, hcount⟩ := hanswers
    obtain ⟨-, hsame⟩ | ⟨-, helapsed, -⟩ := hown
    · cases hlate.symm.trans (hsame.trans htwin)
    exact ⟨x, y, y', hx, hy, hy', hlate, htwin, hothers 0 (by decide), hfailed,
      hothers 2 (by decide), hcount, hd, helapsed.time Timer.neverEarly_exact⟩
  · obtain ⟨x, hx⟩ : ∃ x, (start 1 .exact).acts [.event (.tick 1 1)] = some x := ⟨_, rfl⟩
    obtain ⟨e, he, hh⟩ : ∃ e, x.acts [.event (.call (.submitLate
        ⟨"StopUnit", ["b.service", "fail"]⟩ ⟨1⟩ 1 true))] = some e ∧ e.handle = true := by
      cases hx
      exact ⟨_, rfl, rfl⟩
    obtain ⟨hlate, -⟩ := acts_time_out hx rfl (by decide) he hh
    cases hx
    cases he
    obtain ⟨-, -, hnever⟩ := hlate (by decide)
    exact ⟨_, _, _, rfl, rfl, rfl, hnever, rfl, rfl⟩

end Engine

end UnitControl
