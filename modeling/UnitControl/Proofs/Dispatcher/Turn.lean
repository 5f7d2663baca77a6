import UnitControl.Dispatcher

/-!
# The turns of the dispatcher

What the dispatcher can do in one turn, in full: which entry it takes, what becomes of the table of
pending jobs, and to whom it replies.
-/

namespace UnitControl

/-- The job whose end an item of the signal stream reports, with its output. -/
def Signal.reported? : Except Error Signal → Option (String × JobOutput)
  | .ok signal => signal.completion?
  | .error _ => none

theorem Signal.reported?_eq_some_iff {item : Except Error Signal} {path : String}
    {output : JobOutput} : Signal.reported? item = some (path, output) ↔
      ∃ id unit word, item = .ok (.jobRemoved id path unit word) ∧ output = .ofWord word := by
  constructor
  · intro h
    cases item with
    | error err => cases h
    | ok signal =>
      cases signal with
      | jobRemoved id job unit word =>
        cases h
        exact ⟨id, unit, word, rfl, rfl⟩
      | _ => cases h
  · rintro ⟨id, unit, word, rfl, rfl⟩
    rfl

def Stage.call? : Stage → Option (CallerId × JobRequest)
  | calling caller request => some (caller, request)
  | _ => none

namespace Dispatcher

variable {d : Dispatcher} {r : Dispatcher × List Reply}

theorem receive_eq (d : Dispatcher) (item : Except Error Signal) :
    ∃ signals, d.receive item = { d with signals := signals } := by
  unfold receive
  split
  · exact ⟨d.signals, rfl⟩
  · exact ⟨_, rfl⟩

theorem takeCommand_cases (h : d.takeCommand? = some r) :
    d.stage = .idle ∧
      ((∃ caller request rest, d.commands = .submit caller request :: rest ∧
          r = ({ d with commands := rest, stage := .calling caller request }, [])) ∨
        ∃ caller rest, d.commands = .count caller :: rest ∧
          r = ({ d with commands := rest }, [(caller, .pending (.ok d.pending.size))])) := by
  unfold takeCommand? at h
  split at h
  · rename_i caller request rest hs hc
    exact ⟨hs, .inl ⟨caller, request, rest, hc, (Option.some.inj h).symm⟩⟩
  · rename_i caller rest hs hc
    exact ⟨hs, .inr ⟨caller, rest, hc, (Option.some.inj h).symm⟩⟩
  · cases h

theorem called_cases {caller : CallerId} {request : JobRequest} {result : Except Error String}
    (hs : d.stage = .calling caller request) (h : d.called? result = some r) :
    (∃ err, result = .error err ∧
        r = ({ d with stage := .idle }, [(caller, .job (.error err))])) ∨
      ∃ path, result = .ok path ∧
        r = ({ d with stage := .idle, pending := d.pending.put path caller },
          (d.pending.get? path).toList.map fun older => (older, .job (.error .dropped))) := by
  unfold called? at h
  rw [hs] at h
  cases result with
  | error err => exact .inl ⟨err, rfl, (Option.some.inj h).symm⟩
  | ok path => exact .inr ⟨path, rfl, (Option.some.inj h).symm⟩

theorem route_of_reported {item : Except Error Signal} {path : String} {output : JobOutput}
    (h : Signal.reported? item = some (path, output)) : d.route item = d.resolve path output := by
  cases item with
  | error err => cases h
  | ok signal =>
    have hc : signal.completion? = some (path, output) := h
    simp only [route, hc]

theorem route_of_not_reported {item : Except Error Signal} (h : Signal.reported? item = none) :
    ∃ stage : Stage, (stage = d.stage ∨ ∃ parcel, stage = .collecting parcel) ∧
      d.route item = ({ d with stage := stage }, []) := by
  cases item with
  | error err => exact ⟨_, .inr ⟨.fault err, rfl⟩, rfl⟩
  | ok signal =>
    have hc : signal.completion? = none := h
    simp only [route, hc]
    cases signal.update? with
    | some u => exact ⟨_, .inr ⟨.value u, rfl⟩, rfl⟩
    | none => exact ⟨d.stage, .inl rfl, rfl⟩

/-- A signal ends the wait of the caller whose job it reports, or it changes nothing that anybody
waits for. -/
theorem takeSignal_cases {item : Except Error Signal} {rest : List (Except Error Signal)}
    (hi : d.signals = item :: rest) (h : d.takeSignal? = some r) :
    d.stage = .idle ∧
      ((∃ path output caller, Signal.reported? item = some (path, output) ∧
          d.pending.get? path = some caller ∧
          r = ({ d with signals := rest, pending := d.pending.erase path },
            [(caller, .job (.ok output))])) ∨
        ∃ stage : Stage, (stage = .idle ∨ ∃ parcel, stage = .collecting parcel) ∧
          (∀ path output, Signal.reported? item = some (path, output) →
            d.pending.get? path = none) ∧
          r = ({ d with signals := rest, stage := stage }, [])) := by
  unfold takeSignal? at h
  split at h
  · rename_i item' rest' hs hi'
    rw [hi] at hi'
    cases hi'
    have hr := (Option.some.inj h).symm
    refine ⟨hs, ?_⟩
    cases hc : Signal.reported? item with
    | some p =>
      obtain ⟨path, output⟩ := p
      rw [route_of_reported hc, resolve] at hr
      cases hp : d.pending.get? path with
      | some caller =>
        simp only [hp] at hr
        exact .inl ⟨path, output, caller, rfl, hp, hr⟩
      | none =>
        simp only [hp] at hr
        refine .inr ⟨.idle, .inl rfl, ?_, by rw [hr, hs]⟩
        intro path' output' he
        cases he
        exact hp
    | none =>
      obtain ⟨stage, hstage, hroute⟩ := route_of_not_reported (d := { d with signals := rest }) hc
      rw [hroute] at hr
      refine .inr ⟨stage, ?_, by simp, hr⟩
      exact hstage.imp_left fun he => he.trans hs
  · cases h

/-- Once a signal is taken nobody waits for the job that it reports, and whoever else waited still
does. -/
theorem takeSignal_pending {item : Except Error Signal} {rest : List (Except Error Signal)}
    (hi : d.signals = item :: rest) (h : d.takeSignal? = some r) :
    r.1.signals = rest ∧ r.1.stage.call? = none ∧
      (∀ path output, Signal.reported? item = some (path, output) →
        r.1.pending.get? path = none) ∧
      ∀ path c, (r.1.pending.get? path = some c → d.pending.get? path = some c) ∧
        (d.pending.get? path = some c → r.1.pending.get? path = some c ∨
          ∃ output, r.2 = [(c, .job (.ok output))]) := by
  obtain ⟨hs, ⟨path₀, output, caller, hrep, hp, rfl⟩ | ⟨stage, hstage, hnone, rfl⟩⟩ :=
    takeSignal_cases hi h
  · have hget : ∀ path, (d.pending.erase path₀).get? path =
        if path = path₀ then none else d.pending.get? path := d.pending.get?_erase path₀
    refine ⟨rfl, by simp only [hs, Stage.call?], fun path output' hrep' => ?_, fun path c => ?_⟩
    · rw [hrep] at hrep'
      cases hrep'
      exact (hget path₀).trans (if_pos rfl)
    · dsimp only
      rw [hget]
      by_cases hpath : path = path₀
      · subst hpath
        rw [if_pos rfl, hp]
        constructor
        · intro he
          cases he
        · intro he
          cases he
          exact .inr ⟨output, rfl⟩
      · rw [if_neg hpath]
        exact ⟨id, .inl⟩
  · refine ⟨rfl, ?_, hnone, fun path c => ⟨id, .inl⟩⟩
    obtain rfl | ⟨parcel, rfl⟩ := hstage <;> rfl

theorem stage_of_mayStop {reachable : Bool} (h : d.mayStop reachable = true) :
    d.stage = .idle := by
  unfold mayStop isIdle at h
  split at h
  · assumption
  · simp at h

theorem stage_of_hasStopped (h : d.hasStopped = true) : d.stage = .stopped := by
  unfold hasStopped at h
  split at h
  · assumption
  · cases h

end Dispatcher

end UnitControl
