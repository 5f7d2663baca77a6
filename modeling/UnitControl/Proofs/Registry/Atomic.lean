import UnitControl.Proofs.Registry.Sinks

/-!
# An operation that fails leaves nothing behind

An operation that takes references stops at the first rule that the bus refuses to add, and lets the
references go that it has taken so far. So it has added rules only to remove them again, and the
registry is the one in which it began.
-/

namespace UnitControl.Registry

/-- The operations that take references. -/
def Operation.Acquires : Operation → Prop
  | add .. | attach .. | subscribe .. => True
  | remove .. | detach .. | unsubscribe _ => False

/-- The registry `r` is `before` with one more reference for each unit in `held`. -/
structure Ahead (before r : Registry) (held : List String) : Prop where
  set_eq : ∀ s, r.set s = before.set s
  directs_eq : r.directs = before.directs
  count_eq : ∀ unit, r.count unit = before.count unit + held.count unit
  stored_ne_zero : ∀ unit, r.counts.get? unit ≠ some 0

variable {before r r' : Registry} {held : List String} {err : Error}
  {log : List (MatchCall × Except Error Unit)}

/-- With what the bus has refused a call. -/
def refusal? : MatchCall × Except Error Unit → Option Error
  | (_, .error err) => some err
  | (_, .ok _) => none

theorem resume_releasing (r : Registry) (call : MatchCall) (answer : Except Error Unit)
    (failure : Option Error) (rest : List String) :
    r.resume answer (.releasing failure rest) =
      r.releaseAll (failure.or (refusal? (call, answer))) rest := by
  cases answer with
  | ok _ => exact congrArg (r.releaseAll · rest) Option.or_none.symm
  | error e => rfl

theorem letGo_eq_last {unit : String} (h : r.counts.get? unit ≠ some 0) :
    (r.letGo unit).2 = true ↔ r.count unit = 1 := by
  unfold letGo
  cases hu : r.counts.get? unit with
  | none => simp [count, hu]
  | some n =>
    have hn : n ≠ 0 := fun hz => h (hz ▸ hu)
    by_cases hlt : 1 < n
    · simp only [hlt, if_true, count, hu, Option.getD_some, Bool.false_eq_true, false_iff]
      omega
    · simp only [hlt, if_false, count, hu, Option.getD_some, true_iff]
      omega

/-- Letting references go removes the rules of the units that had no other, whatever the bus has to
say to it; the first refusal is the result. -/
theorem completes_releaseAll {failure : Option Error} {units : List String}
    {result : Except Error Unit} (hs : ∀ unit, r.counts.get? unit ≠ some 0) (hd : units.Nodup)
    (hc : Completes (r.releaseAll failure units) log r' result) :
    r'.sets = r.sets ∧ r'.directs = r.directs ∧ (∀ unit, r'.counts.get? unit ≠ some 0) ∧
      (∀ unit, r'.count unit = r.count unit - units.count unit) ∧
      log.map Prod.fst = (units.filter fun u => r.count u = 1).map .remove ∧
      result = outcome (failure.or (log.findSome? refusal?)) := by
  induction units generalizing r failure log with
  | nil =>
    cases hc
    exact ⟨rfl, rfl, hs, fun _ => rfl, rfl, by simp⟩
  | cons unit rest ih =>
    obtain ⟨hu, hrest⟩ := List.nodup_cons.1 hd
    have hsets := sets_letGo r unit
    have hdirects := directs_letGo r unit
    have hstored := stored_letGo hs unit
    have hlast := letGo_eq_last (hs unit)
    have hcount := count_letGo r unit
    unfold releaseAll at hc
    cases hl : r.letGo unit with
    | mk r₁ last =>
      rw [hl] at hc hsets hdirects hstored hlast hcount
      have hsame : rest.filter (fun u => r₁.count u = 1) = rest.filter fun u => r.count u = 1 := by
        refine List.filter_congr fun u hm => ?_
        rw [hcount, if_neg]
        rintro rfl
        exact hu hm
      have hless : ∀ v, r₁.count v - rest.count v = r.count v - (unit :: rest).count v := by
        intro v
        rw [hcount, List.count_cons]
        by_cases hv : v = unit
        · subst hv
          simp only [if_true, beq_self_eq_true]
          omega
        · have hv' : unit ≠ v := Ne.symm hv
          simp [hv, hv']
      cases last with
      | false =>
        have hn : ¬r.count unit = 1 := fun hz => Bool.false_ne_true (hlast.2 hz)
        rw [List.filter_cons_of_neg (by simpa using hn), ← hsame]
        obtain ⟨h₁, h₂, h₃, h₄, h₅, h₆⟩ := ih hstored hrest hc
        exact ⟨h₁.trans hsets, h₂.trans hdirects, h₃, fun v => (h₄ v).trans (hless v), h₅, h₆⟩
      | true =>
        rw [List.filter_cons_of_pos (by simpa using hlast.1 rfl), ← hsame]
        cases hc with
        | @ask _ _ _ _ answer _ log hc =>
          rw [resume_releasing r₁ (.remove unit)] at hc
          obtain ⟨h₁, h₂, h₃, h₄, h₅, h₆⟩ := ih hstored hrest hc
          refine ⟨h₁.trans hsets, h₂.trans hdirects, h₃, fun v => (h₄ v).trans (hless v),
            congrArg (MatchCall.remove unit :: ·) h₅, h₆.trans ?_⟩
          rw [List.findSome?_cons, Option.or_assoc]
          cases refusal? (.remove unit, answer) <;> simp

theorem ahead_self (h : ∀ unit, r.counts.get? unit ≠ some 0) : Ahead r r [] :=
  ⟨fun _ => rfl, rfl, fun _ => rfl, h⟩

namespace Ahead

theorem hold (h : Ahead before r held) (unit : String) :
    Ahead before (r.hold unit) (held ++ [unit]) := by
  refine ⟨h.set_eq, h.directs_eq, fun v => ?_, stored_hold h.stored_ne_zero unit⟩
  have hc := h.count_eq v
  rw [count_hold, List.count_append, List.count_singleton]
  by_cases hv : v = unit
  · subst hv
    simp only [if_true, beq_self_eq_true]
    omega
  · have hv' : unit ≠ v := Ne.symm hv
    simp [hv, hv', hc]

theorem release {failure : Option Error} {result : Except Error Unit} (h : Ahead before r held)
    (hd : held.Nodup) (hc : Completes (r.releaseAll failure held) log r' result) :
    Ahead before r' [] ∧
      log.map Prod.fst = (held.filter fun u => before.count u = 0).map .remove ∧
      result = outcome (failure.or (log.findSome? refusal?)) := by
  obtain ⟨hsets, hdirects, hstored, hcount, hlog, hres⟩ :=
    completes_releaseAll h.stored_ne_zero hd hc
  refine ⟨⟨fun s => ?_, hdirects.trans h.directs_eq, fun v => ?_, hstored⟩, ?_, hres⟩
  · rw [← h.set_eq s, set, set, hsets]
  · rw [hcount, h.count_eq]
    simp
  · rw [hlog]
    refine congrArg _ (List.filter_congr fun u hm => ?_)
    have hone := List.count_eq_one_of_mem hd hm
    rw [h.count_eq, hone]
    simp

/-- A re-attachment that fails has added the rules of some members, in the order in which it came
to them, and removes just these. -/
theorem reattach {s : SetId} {feed : FeedId} {rest : List String} (h : Ahead before r held)
    (hd : (held ++ rest).Nodup)
    (hc : Completes (r.holdAll s feed held rest) log r' (.error err)) :
    ∃ (taken : List String) (unit : String) (undone : List (MatchCall × Except Error Unit)),
      log = (taken.map fun u => (.add u, .ok ())) ++ (.add unit, .error err) :: undone ∧
      undone.map Prod.fst =
        ((held.filter fun u => before.count u = 0) ++ taken).map .remove ∧
      Ahead before r' [] := by
  induction rest generalizing r held log with
  | nil => cases hc
  | cons unit rest ih =>
    have hd' : (held ++ [unit] ++ rest).Nodup := by simpa using hd
    have hu : unit ∉ held := fun hm =>
      (List.nodup_append.1 hd).2.2 unit hm unit List.mem_cons_self rfl
    have hcount : r.count unit = before.count unit := by
      rw [h.count_eq, List.count_eq_zero_of_not_mem hu, Nat.add_zero]
    unfold holdAll at hc
    by_cases hz : r.count unit = 0
    · rw [if_pos hz] at hc
      rw [hcount] at hz
      cases hc with
      | @ask _ _ _ _ answer _ log hc =>
        cases answer with
        | ok _ =>
          obtain ⟨taken, failing, undone, rfl, hundone, hahead⟩ := ih (h.hold unit) hd' hc
          refine ⟨unit :: taken, failing, undone, rfl, ?_, hahead⟩
          rw [hundone, List.filter_append, List.filter_cons_of_pos (by simpa using hz),
            List.filter_nil, List.append_assoc, List.singleton_append]
        | error e =>
          obtain ⟨hahead, hlog, hres⟩ := h.release (List.nodup_append.1 hd).1 hc
          cases hres
          exact ⟨[], unit, log, rfl, by rw [hlog, List.append_nil], hahead⟩
    · rw [if_neg hz] at hc
      rw [hcount] at hz
      obtain ⟨taken, failing, undone, hlog, hundone, hahead⟩ := ih (h.hold unit) hd' hc
      refine ⟨taken, failing, undone, hlog, ?_, hahead⟩
      rw [hundone, List.filter_append, List.filter_cons_of_neg (by simpa using hz),
        List.filter_nil, List.append_nil]

end Ahead

theorem ahead_bare (hw : r.Wired) (hs : ∀ unit, r.counts.get? unit ≠ some 0) {s : SetId}
    (hdet : (r.set s).attached = false) :
    Ahead r (r.putSet s { r.set s with sink := none }) [] := by
  refine ⟨fun t => ?_, rfl, fun _ => rfl, hs⟩
  rw [set_putSet]
  split
  · rename_i ht
    rw [ht, ← hw.bare s hdet]
  · rfl

/-- An operation that takes references fails only with the error with which the bus has refused a
rule. It has removed just the rules that it had added, and no trace of it is left. -/
theorem acquire_atomic (hw : r.Wired) (hs : ∀ unit, r.counts.get? unit ≠ some 0) {op : Operation}
    (ha : op.Acquires) (hc : Completes (r.begin op) log r' (.error err)) :
    ∃ (taken : List String) (unit : String) (undone : List (MatchCall × Except Error Unit)),
      log = (taken.map fun u => (.add u, .ok ())) ++ (.add unit, .error err) :: undone ∧
      undone.map Prod.fst = taken.map .remove ∧ Ahead r r' [] := by
  cases op with
  | add s unit =>
    simp only [begin] at hc
    split at hc
    · cases hc
    · split at hc
      · split at hc
        · cases hc with
          | @ask _ _ _ _ answer _ log hc =>
            cases answer with
            | ok _ => cases hc
            | error e =>
              cases hc
              exact ⟨[], unit, [], rfl, rfl, ahead_self hs⟩
        · cases hc
      · cases hc
  | subscribe feed unit =>
    simp only [begin] at hc
    split at hc
    · cases hc with
      | @ask _ _ _ _ answer _ log hc =>
        cases answer with
        | ok _ => cases hc
        | error e =>
          cases hc
          exact ⟨[], unit, [], rfl, rfl, ahead_self hs⟩
    · cases hc
  | attach s feed =>
    simp only [begin] at hc
    split at hc
    · cases hc
    · rename_i hdet
      have h := ahead_bare hw hs (s := s) (by simpa using hdet)
      obtain ⟨taken, unit, undone, hlog, hundone, hahead⟩ := h.reattach (r.set s).distinct hc
      exact ⟨taken, unit, undone, hlog, hundone, hahead⟩
  | remove s unit => exact ha.elim
  | detach s only forget => exact ha.elim
  | unsubscribe feed => exact ha.elim

theorem closes_of_acquire (hw : r.Wired) {op : Operation} (ha : op.Acquires)
    (hc : Completes (r.begin op) log r' (.error err)) : r.closes op = none := by
  cases op with
  | add s unit => rfl
  | subscribe feed unit => rfl
  | attach s feed =>
    simp only [begin] at hc
    split at hc
    · cases hc
    · rename_i hdet
      exact hw.bare s (by simpa using hdet)
  | remove s unit => exact ha.elim
  | detach s only forget => exact ha.elim
  | unsubscribe feed => exact ha.elim

/-- What an answered call makes of the rules that the bus has, by their texts. A rule that is added
twice is there twice. -/
def afterCall (rules : List String) : MatchCall × Except Error Unit → List String
  | (.add unit, .ok _) => (MatchRule.unit unit).text :: rules
  | (.remove unit, .ok _) => rules.erase (MatchRule.unit unit).text
  | (_, .error _) => rules

def afterCalls (rules : List String) (log : List (MatchCall × Except Error Unit)) : List String :=
  log.foldl afterCall rules

def ruleTexts (units : List String) : List String := units.map fun u => (MatchRule.unit u).text

theorem afterCalls_add_perm (rules taken : List String) :
    (afterCalls rules (taken.map fun u => (.add u, .ok ()))).Perm (ruleTexts taken ++ rules) := by
  induction taken generalizing rules with
  | nil => exact .refl _
  | cons unit rest ih => exact (ih (afterCall rules (.add unit, .ok ()))).trans List.perm_middle

theorem afterCalls_remove_perm {rules rules' taken : List String}
    (hp : rules'.Perm (ruleTexts taken ++ rules)) (undone : List (MatchCall × Except Error Unit))
    (hu : undone.map Prod.fst = taken.map .remove) (hok : ∀ p ∈ undone, p.2 = .ok ()) :
    (afterCalls rules' undone).Perm rules := by
  induction taken generalizing rules' undone with
  | nil =>
    rw [List.map_eq_nil_iff.1 hu]
    exact hp
  | cons unit rest ih =>
    obtain ⟨p, later, rfl, hcall, hlater⟩ := List.map_eq_cons_iff.1 hu
    have hanswer := hok p List.mem_cons_self
    obtain ⟨call, answer⟩ := p
    cases hcall
    cases hanswer
    have herase := hp.erase (MatchRule.unit unit).text
    rw [ruleTexts, List.map_cons, List.cons_append, List.erase_cons_head] at herase
    exact ih herase later hlater fun p hm => hok p (List.mem_cons_of_mem _ hm)

theorem afterCalls_undone {taken : List String} {unit : String}
    {undone : List (MatchCall × Except Error Unit)}
    (hu : undone.map Prod.fst = taken.map .remove) (hok : ∀ p ∈ undone, p.2 = .ok ())
    (rules : List String) :
    (afterCalls rules ((taken.map fun u => (.add u, .ok ())) ++
      (.add unit, .error err) :: undone)).Perm rules := by
  rw [afterCalls, List.foldl_append]
  exact afterCalls_remove_perm (afterCalls_add_perm rules taken) undone hu hok

/-- The same registry with the members of its sets in any order. -/
structure Reorders (r r' : Registry) : Prop where
  members : ∀ s, (r'.set s).members.Perm (r.set s).members
  attached : ∀ s, (r'.set s).attached = (r.set s).attached
  sink : ∀ s, (r'.set s).sink = (r.set s).sink
  directs : r'.directs = r.directs
  counts : r'.counts = r.counts

theorem Reorders.wired (h : Reorders r r') (hw : r.Wired) : r'.Wired where
  bare s ha := (h.sink s).trans (hw.bare s ((h.attached s).symm.trans ha))
  sinks s t feed hs ht := hw.sinks s t feed ((h.sink s).symm.trans hs) ((h.sink t).symm.trans ht)
  apart s feed hs := (congrArg (·.get? feed) h.directs).trans
    (hw.apart s feed ((h.sink s).symm.trans hs))

theorem reorders_putSet {s : SetId} {x : UnitSet} (hp : x.members.Perm (r.set s).members)
    (ha : x.attached = (r.set s).attached) (hs : x.sink = (r.set s).sink) :
    Reorders r (r.putSet s x) := by
  refine ⟨fun t => ?_, fun t => ?_, fun t => ?_, rfl, rfl⟩
  all_goals
    rw [set_putSet]
    split
    · rename_i ht
      subst ht
      assumption
    · rfl

end UnitControl.Registry
