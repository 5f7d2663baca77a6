import UnitControl.Proofs.Bus.MatchRule.Reader
import UnitControl.Proofs.Engine.Tenure
import UnitControl.Proofs.Registry.Targets

/-!
# What a rule lets through is published under the name of its unit

The name of a unit goes into the rule that the bus is asked for, and comes out of the path of the
signals that the rule lets through. Whoever has the unit under its canonical name gets them.
-/

namespace UnitControl

namespace Registry

variable {r r' : Registry} {s : SetId} {unit : String} {result : Except Error Unit}
  {log : List (MatchCall × Except Error Unit)}

theorem mem_members_join (r : Registry) (s : SetId) (unit m : String) :
    m ∈ (r.join s unit).members s ↔ m = unit ∨ m ∈ r.members s := by
  rw [members, join, set_putSet, if_pos rfl]
  exact UnitSet.mem_members_join _ _ _

/-- An addition asks for no rule but that of its unit, and succeeds with the unit in the set. -/
theorem completes_add (hc : Completes (r.begin (.add s unit)) log r' result) :
    (∀ p ∈ log, p.1 = .add unit) ∧
      (result = .ok () → ∀ m, m ∈ r'.members s ↔ m = unit ∨ m ∈ r.members s) := by
  simp only [begin] at hc
  split at hc
  · rename_i hm
    cases hc
    exact ⟨by simp, fun _ m => ⟨.inr, fun h => h.elim (fun hu => hu ▸ hm) id⟩⟩
  · split at hc
    · split at hc
      · cases hc with
        | @ask _ _ _ _ answer _ log hc =>
          cases answer with
          | ok _ =>
            cases hc
            exact ⟨by simp, fun _ => mem_members_join (r.hold unit) s unit⟩
          | error err =>
            cases hc
            exact ⟨by simp, fun hok => by cases hok⟩
      · cases hc
        exact ⟨by simp, fun _ => mem_members_join (r.hold unit) s unit⟩
    · cases hc
      exact ⟨by simp, fun _ => mem_members_join r s unit⟩

end Registry

/-- Subscribers learn of the properties of a unit under its name. Those that it has as a unit of a
special kind, a service for one, are not for them. -/
theorem Signal.update?_ofName (unit interface : String) (changed : Properties)
    (invalidated : List String) :
    (propertiesChanged (UnitPath.ofName unit) interface changed invalidated).update? =
      if interface = unitInterface then some ⟨unit, changed⟩ else none := by
  simp only [update?, UnitPath.toName?_ofName, Option.map_some]

namespace Engine

open Registry

variable {e y : Engine} {s : SetId} {text unit : String} {parcel : Parcel Update}

theorem undertakes_add (hu : Name.canonical text = .ok unit)
    (hs : e.step (.call (.add s text)) = some y) :
    y.Undertakes (.add s unit) (.caller e.fresh) := by
  refine of_step hs (fun x hr => ?_) fun _ => id
  cases hr with
  | call hp =>
    simp only [Engine.call, operateOn, hu]
    exact Table.get?_put_self _ _ _

/-- A signal with an update is taken, and the dispatcher waits for the registry to tell where the
update goes. -/
theorem exists_step_takeSignal {signal : Signal} {rest : List (Except Error Signal)} {u : Update}
    (hi : e.dispatcher.stage = .idle) (hq : e.dispatcher.signals = .ok signal :: rest)
    (hc : signal.completion? = none) (hu : signal.update? = some u) :
    ∃ y, e.step .takeSignal = some y ∧ y.dispatcher.stage = .collecting (.value u) := by
  let d : Dispatcher := { e.dispatcher with signals := rest, stage := .collecting (.value u) }
  have hd : e.dispatcher.takeSignal? = some (d, []) := by
    simp only [Dispatcher.takeSignal?, hi, hq, Dispatcher.route, hc, hu]
    rfl
  have hr : e.react .takeSignal =
      some (((e.note (.tookSignal (.ok signal))).dispatch (d, [])).enlist .dispatcher) := by
    simp only [react, takeSignal?, hq, hd]
    rfl
  refine ⟨_, by rw [step, hr, Option.map_some], ?_⟩
  split <;> rfl

theorem stage_of_grant_dispatcher (hc : e.dispatcher.stage = .collecting parcel)
    (hs : e.step (.grant .dispatcher) = some y) :
    y.dispatcher.stage = .sending parcel (e.registry.targets parcel) := by
  refine of_step (P := fun y => y.dispatcher.stage = .sending parcel (e.registry.targets parcel)) hs
    (fun x hr => ?_) fun _ => Dispatcher.stage_rouse_of_sending
  cases hr with
  | grant hh hq => simp only [enter, hc, Engine.note]

/-- A set that is to have the unit of this text has it under its canonical name, for which the rule
is asked for, and under which the signals are published that the rule lets through. -/
structure Publishes (e : Engine) (s : SetId) (text name : String) : Prop where
  asks : ∀ x later y z events e', e.step (.call (.add s text)) = some x → x.run later = some y →
    y.step (.grant (.caller e.fresh)) = some z → UntilFree z events e' →
    ∃ log result, e'.matchLog = y.matchLog ++ log ∧ (∀ p ∈ log, p.1.rule = .unit name) ∧
      .answered e.fresh (.done result) ∈ e'.record ∧
      (result = .ok () → ∀ m, m ∈ e'.registry.members s ↔ m = name ∨ m ∈ y.registry.members s)
  takes : ∀ items path changed invalidated rest,
    MatchRule.read (MatchRule.unit name).text = some items → ("path", path) ∈ items →
    e.dispatcher.stage = .idle → e.dispatcher.signals =
      .ok (.propertiesChanged path unitInterface changed invalidated) :: rest →
    ∃ x, e.step .takeSignal = some x ∧ x.dispatcher.stage = .collecting (.value ⟨name, changed⟩)
  sends : ∀ changed x, e.dispatcher.stage = .collecting (.value ⟨name, changed⟩) →
    e.step (.grant .dispatcher) = some x →
    ∃ targets, x.dispatcher.stage = .sending (.value ⟨name, changed⟩) targets ∧
      ∀ feed, feed ∈ targets ↔ (∃ t, name ∈ e.registry.members t ∧
        (e.registry.set t).sink = some feed) ∨ e.registry.directs.get? feed = some name

theorem Reachable.publishes (h : e.Reachable) (hu : Name.canonical text = .ok unit) (s : SetId) :
    e.Publishes s text unit where
  asks x later y z events e' hx hr hz he' := by
    obtain ⟨holder, hgrant, -⟩ := reaction_of_step hz
    have hq : .caller e.fresh ∈ y.queue := by
      cases hgrant with
      | grant hh hq => exact List.contains_iff_mem.1 hq
    have hy := (undertakes_add hu hx).of_run (h.step hx) hr hq
    have ho := ((h.step hx).run hr).attained.orderly
    obtain ⟨log, result, hc, hlog, hanswer⟩ := concludes_of_grant ho hy.intends hz he'
    obtain ⟨hcalls, hmembers⟩ := completes_add hc
    refine ⟨log, result, hlog, fun p hm => ?_, hanswer _ _ rfl hy, hmembers⟩
    rw [hcalls p hm]
    rfl
  takes items path changed invalidated rest hread hpath hi hq := by
    rw [MatchRule.read_text_unit] at hread
    cases hread
    obtain rfl : path = UnitPath.ofName unit := by simpa using hpath
    refine exists_step_takeSignal hi hq rfl ?_
    rw [Signal.update?_ofName, if_pos rfl]
  sends changed x hc hx :=
    ⟨_, stage_of_grant_dispatcher hc hx, fun _ => mem_targets⟩

/-- Whatever the name of a unit is made of: its rule has five items, of which the path is the only
one that depends on it. The path of the rule leads the dispatcher back to the unit, no two units
have the same rule, and no rule of a unit is one for the signals of the manager. So whatever an
engine has been through, a set gets the signals that its rules let through under the names of its
members. -/
theorem rules_select_units :
    (∀ unit, ∃ path, MatchRule.read (MatchRule.unit unit).text =
        some [("type", "signal"), ("sender", "org.freedesktop.systemd1"),
          ("interface", "org.freedesktop.DBus.Properties"), ("member", "PropertiesChanged"),
          ("path", path)] ∧
      ∀ interface changed invalidated, (Signal.propertiesChanged path interface changed
        invalidated).update? = if interface = unitInterface then some ⟨unit, changed⟩ else none) ∧
    (∀ u v, (MatchRule.unit u = MatchRule.unit v ↔ u = v) ∧
      ((MatchRule.unit u).text = (MatchRule.unit v).text ↔ u = v)) ∧
    (∀ unit member, (MatchRule.unit unit).text ≠ (MatchRule.manager member).text) ∧
    ∀ e s text name, Reachable e → Name.canonical text = .ok name → e.Publishes s text name := by
  refine ⟨fun unit => ⟨_, MatchRule.read_text_unit unit, Signal.update?_ofName unit⟩,
    fun u v => ⟨⟨fun h => ?_, fun h => h ▸ rfl⟩, MatchRule.text_unit_inj⟩,
    MatchRule.text_unit_ne_text_manager, fun e s text name h hu => h.publishes hu s⟩
  exact MatchRule.text_unit_inj.1 (congrArg MatchRule.text h)

/-- A unit whose name has an apostrophe, a comma, a backslash and a letter outside ASCII in it. -/
def quoted : String := "it's,\\é.mount"

/-- A set with this unit and a sink, and a change of properties with this path and interface. -/
def announcing (path interface : String) : List Event :=
  [.openSet, .call (.add 0 quoted), .grant (.caller 1), .matchReturned (.ok ()),
    .call (.attach 0 1 1 none), .grant (.caller 2),
    .signal (.ok (.propertiesChanged path interface .empty []))]

/-- The set asks for the rule of the unit, and the change of the unit is sent to it. -/
theorem rules_select_units_quoted :
    ∃ e x y z path e₁ e₂ e₃ targets, (start 1 .exact).run [.openSet] = some e ∧
      e.step (.call (.add 0 quoted)) = some x ∧ x.step (.grant (.caller 1)) = some y ∧
      UntilFree y [.matchReturned (.ok ())] z ∧
      (∃ log, z.matchLog = x.matchLog ++ log ∧ ∀ p ∈ log, p.1.rule = .unit quoted) ∧
      MatchRule.read (MatchRule.unit quoted).text = some [("type", "signal"),
        ("sender", "org.freedesktop.systemd1"), ("interface", "org.freedesktop.DBus.Properties"),
        ("member", "PropertiesChanged"), ("path", path)] ∧
      (start 1 .exact).run (announcing path unitInterface) = some e₁ ∧
      e₁.step .takeSignal = some e₂ ∧
      e₂.dispatcher.stage = .collecting (.value ⟨quoted, .empty⟩) ∧
      e₂.step (.grant .dispatcher) = some e₃ ∧
      e₃.dispatcher.stage = .sending (.value ⟨quoted, .empty⟩) targets ∧ 2 ∈ targets := by
  obtain ⟨hread, -, -, hpublishes⟩ := rules_select_units
  have hname : Name.canonical quoted = .ok quoted := rfl
  obtain ⟨e, he⟩ : ∃ e, (start 1 .exact).run [.openSet] = some e := ⟨_, rfl⟩
  obtain ⟨x, y, z, hx, hy, hz⟩ : ∃ x y z, e.step (.call (.add 0 quoted)) = some x ∧
      x.step (.grant (.caller 1)) = some y ∧ UntilFree y [.matchReturned (.ok ())] z := by
    cases he
    exact ⟨_, _, _, rfl, rfl, .wait (Option.isSome_iff_ne_none.1 rfl) rfl (.free rfl)⟩
  have hfresh : e.fresh = 1 := by
    cases he
    rfl
  obtain ⟨log, result, hlog, hrules, -, -⟩ :=
    (hpublishes e 0 quoted quoted ⟨1, .exact, _, he⟩ hname).asks x [] x y _ z hx rfl
      (by rwa [hfresh]) hz
  obtain ⟨path, hpath, -⟩ := hread quoted
  obtain rfl : path = UnitPath.ofName quoted := by
    have hitems := Option.some.inj (hpath.symm.trans (MatchRule.read_text_unit quoted))
    simp only [List.cons.injEq, Prod.mk.injEq, true_and, and_true] at hitems
    exact hitems.2.2
  let events := announcing (UnitPath.ofName quoted) unitInterface
  obtain ⟨e₁, he₁⟩ : ∃ e, (start 1 .exact).run events = some e := ⟨_, rfl⟩
  have hreach₁ : e₁.Reachable := ⟨1, .exact, _, he₁⟩
  have hstage : e₁.dispatcher.stage = .idle ∧ e₁.dispatcher.signals =
      [.ok (.propertiesChanged (UnitPath.ofName quoted) unitInterface .empty [])] := by
    cases he₁
    exact ⟨rfl, rfl⟩
  obtain ⟨e₂, he₂, hcollecting⟩ := (hpublishes e₁ 0 quoted quoted hreach₁ hname).takes _
    (UnitPath.ofName quoted) .empty [] [] hpath (by simp) hstage.1 hstage.2
  have hnext : (((start 1 .exact).run events).bind (·.step .takeSignal)).any (fun e =>
      (e.step (.grant .dispatcher)).isSome && decide (quoted ∈ e.registry.members 0) &&
        decide ((e.registry.set 0).sink = some 2)) = true := by
    decide +kernel
  simp only [he₁, he₂, Option.bind_some, Option.any_some, Bool.and_eq_true, decide_eq_true_eq,
    Option.isSome_iff_exists] at hnext
  obtain ⟨⟨⟨e₃, he₃⟩, hmember⟩, hsink⟩ := hnext
  obtain ⟨targets, htargets, hiff⟩ :=
    (hpublishes e₂ 0 quoted quoted (hreach₁.step he₂) hname).sends .empty e₃ hcollecting he₃
  exact ⟨e, x, y, z, _, e₁, e₂, e₃, targets, he, hx, hy, hz, ⟨log, hlog, hrules⟩, hpath, he₁, he₂,
    hcollecting, he₃, htargets, (hiff 2).2 (.inl ⟨0, hmember, hsink⟩)⟩

/-- A change of the properties that the unit has as a service comes from the same path, and is not
published under any name. -/
theorem passes_over_services :
    ∃ e x, (start 1 .exact).run
        (announcing (UnitPath.ofName quoted) "org.freedesktop.systemd1.Service") = some e ∧
      e.matchLog = [(.add quoted, .ok ())] ∧
      MatchRule.read (MatchCall.add quoted).rule.text = some [("type", "signal"),
        ("sender", "org.freedesktop.systemd1"), ("interface", "org.freedesktop.DBus.Properties"),
        ("member", "PropertiesChanged"), ("path", UnitPath.ofName quoted)] ∧
      quoted ∈ e.registry.members 0 ∧ (e.registry.set 0).sink = some 2 ∧
      e.dispatcher.stage = .idle ∧ e.step .takeSignal = some x ∧
      x.dispatcher.signals = [] ∧ x.dispatcher.stage = .idle ∧
      ∀ parcel targets, .collected parcel targets ∉ x.journal := by
  let events := announcing (UnitPath.ofName quoted) "org.freedesktop.systemd1.Service"
  obtain ⟨e, he⟩ : ∃ e, (start 1 .exact).run events = some e := ⟨_, rfl⟩
  obtain ⟨x, hx⟩ : ∃ x, e.step .takeSignal = some x := by
    cases he
    exact ⟨_, rfl⟩
  have hbefore : e.matchLog = [(.add quoted, .ok ())] ∧ quoted ∈ e.registry.members 0 ∧
      (e.registry.set 0).sink = some 2 ∧ e.dispatcher.stage = .idle := by
    cases he
    exact ⟨rfl, by decide, rfl, rfl⟩
  let collects : Entry → Bool := fun entry =>
    match entry with
    | .collected .. => true
    | _ => false
  have hafter : x.dispatcher.signals = [] ∧ x.dispatcher.stage = .idle ∧
      x.journal.any collects = false := by
    cases he
    cases hx
    exact ⟨rfl, rfl, rfl⟩
  obtain ⟨hlog, hmember, hsink, hidle⟩ := hbefore
  obtain ⟨hsignals, hstage, hnone⟩ := hafter
  exact ⟨e, x, he, hlog, MatchRule.read_text_unit quoted, hmember, hsink, hidle, hx, hsignals,
    hstage, fun parcel targets hm => List.any_eq_false.1 hnone _ hm rfl⟩

end Engine

end UnitControl
