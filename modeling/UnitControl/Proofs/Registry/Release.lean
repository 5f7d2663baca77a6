import UnitControl.Proofs.Registry.Atomic
import UnitControl.Proofs.Registry.Rules

/-!
# Operations that let references go

Such an operation goes through all its units, whatever the bus has to say to the removal of their
rules. What the bus answers shows in the result and nowhere else.
-/

namespace UnitControl.Registry

/-- The operations that let references go. -/
def Operation.Releases : Operation → Prop
  | remove .. | detach .. | unsubscribe _ => True
  | add .. | attach .. | subscribe .. => False

/-- The registry without one reference on each of the units. -/
def letGoAll (r : Registry) (units : List String) : Registry :=
  units.foldl (fun r unit => (r.letGo unit).1) r

/-- The set has no references to let go, or is not there. -/
def IsDetached (r : Registry) (s : SetId) : Prop := ∀ x, r.sets.get? s = some x → x.attached = false

/-- What an operation has done that lets references go, when it is over. -/
structure Released (r : Registry) (op : Operation) (log : List (MatchCall × Except Error Unit))
    (r' : Registry) (result : Except Error Unit) : Prop where
  /-- The registry is the same as if the bus had granted every call. -/
  granted : ∃ log', Completes (r.begin op) log' r' (.ok ()) ∧ ∀ p ∈ log', p.2 = .ok ()
  removes : ∀ unit, (log.map Prod.fst).count (.remove unit) =
    if r.count unit ≠ 0 ∧ r'.count unit = 0 then 1 else 0
  adds_none : ∀ unit, .add unit ∉ log.map Prod.fst
  fails_iff : (∃ err, result = .error err) ↔ ∃ call err, (call, .error err) ∈ log
  cause : ∀ err, result = .error err → ∃ call, (call, .error err) ∈ log
  again : ∀ s only forget, op = .detach s only forget → r.IsDetached s →
    log = [] ∧ ∀ unit, r'.count unit = r.count unit

variable {r r' : Registry} {op : Operation} {log : List (MatchCall × Except Error Unit)}
  {failure : Option Error} {units : List String} {result : Except Error Unit}

theorem begin_of_releases (h : op.Releases) (r : Registry) :
    r.begin op = (r.dues op).1.releaseAll none (r.dues op).2 := by
  cases op with
  | remove s unit => exact begin_remove r s unit
  | detach s only forget => exact begin_detach r s only forget
  | unsubscribe feed => exact begin_unsubscribe r feed
  | add s unit => exact h.elim
  | attach s feed => exact h.elim
  | subscribe feed unit => exact h.elim

theorem nodup_dues (r : Registry) (op : Operation) : (r.dues op).2.Nodup := by
  cases op with
  | remove s unit =>
    simp only [dues]
    split
    · split <;> simp
    · exact .nil
  | detach s only forget =>
    simp only [dues]
    cases r.sets.get? s with
    | none => exact .nil
    | some x =>
      dsimp only
      split
      · dsimp only
        split
        · exact x.distinct
        · exact .nil
      · exact .nil
  | unsubscribe feed =>
    simp only [dues]
    cases r.directs.get? feed with
    | none => exact .nil
    | some unit => exact List.nodup_singleton unit
  | add s unit => exact .nil
  | attach s feed => exact .nil
  | subscribe feed unit => exact .nil

theorem refusal?_eq_some_iff {p : MatchCall × Except Error Unit} {err : Error} :
    refusal? p = some err ↔ p.2 = .error err := by
  obtain ⟨call, answer⟩ := p
  cases answer <;> simp [refusal?]

/-- With the bus answering in any way, the references are let go to the last. -/
theorem exists_completes_releaseAll (bus : MatchCall → Except Error Unit) (r : Registry)
    (failure : Option Error) (units : List String) :
    ∃ log result, Completes (r.releaseAll failure units) log (r.letGoAll units) result ∧
      ∀ p ∈ log, p.2 = bus p.1 := by
  induction units generalizing r failure with
  | nil => exact ⟨[], _, .done, by simp⟩
  | cons unit rest ih =>
    rw [letGoAll, List.foldl_cons]
    unfold releaseAll
    cases r.letGo unit with
    | mk r₁ last =>
      cases last with
      | false => exact ih r₁ failure
      | true =>
        let answer := bus (.remove unit)
        obtain ⟨log, result, hc, hbus⟩ := ih r₁ (failure.or (refusal? (.remove unit, answer)))
        rw [← resume_releasing] at hc
        refine ⟨(.remove unit, answer) :: log, result, .ask hc, ?_⟩
        exact List.forall_mem_cons.2 ⟨rfl, hbus⟩

theorem registry_of_completes_releaseAll
    (hc : Completes (r.releaseAll failure units) log r' result) : r' = r.letGoAll units := by
  induction units generalizing r failure log with
  | nil =>
    cases hc
    rfl
  | cons unit rest ih =>
    rw [letGoAll, List.foldl_cons]
    unfold releaseAll at hc
    cases hl : r.letGo unit with
    | mk r₁ last =>
      rw [hl] at hc
      cases last with
      | false => exact ih hc
      | true =>
        cases hc with
        | @ask _ _ _ _ answer _ log hc =>
          rw [resume_releasing r₁ (.remove unit)] at hc
          exact ih hc

theorem exists_completes_release (h : op.Releases) (bus : MatchCall → Except Error Unit)
    (r : Registry) : ∃ log r' result, Completes (r.begin op) log r' result ∧
      ∀ p ∈ log, p.2 = bus p.1 := by
  rw [begin_of_releases h]
  obtain ⟨log, result, hc, hbus⟩ := exists_completes_releaseAll bus (r.dues op).1 none (r.dues op).2
  exact ⟨log, _, result, hc, hbus⟩

theorem dues_of_detached {s : SetId} (h : r.IsDetached s) (only : Option FeedId) (forget : Bool) :
    (r.dues (.detach s only forget)).2 = [] := by
  simp only [dues]
  cases hs : r.sets.get? s with
  | none => rfl
  | some x =>
    dsimp only
    split
    · exact if_neg (by simp [h x hs])
    · rfl

theorem error_iff_of_outcome (h : result = outcome (log.findSome? refusal?)) :
    (∃ err, result = .error err) ↔ ∃ call err, (call, .error err) ∈ log := by
  cases hf : log.findSome? refusal? with
  | none =>
    simp only [h, hf, outcome, reduceCtorEq, exists_false, false_iff]
    rintro ⟨call, err, hm⟩
    cases List.findSome?_eq_none_iff.1 hf _ hm
  | some err =>
    obtain ⟨p, hm, hp⟩ := List.exists_of_findSome?_eq_some hf
    simp only [h, hf, outcome]
    exact ⟨fun _ => ⟨p.1, err, refusal?_eq_some_iff.1 hp ▸ hm⟩, fun _ => ⟨err, rfl⟩⟩

theorem mem_of_outcome {err : Error} (h : result = outcome (log.findSome? refusal?))
    (he : result = .error err) : ∃ call, (call, .error err) ∈ log := by
  cases hf : log.findSome? refusal? with
  | none =>
    rw [h, hf] at he
    cases he
  | some first =>
    rw [h, hf] at he
    cases he
    obtain ⟨p, hm, hp⟩ := List.exists_of_findSome?_eq_some hf
    exact ⟨p.1, refusal?_eq_some_iff.1 hp ▸ hm⟩

theorem outcome_of_granted (hok : ∀ p ∈ log, p.2 = .ok ()) :
    outcome (log.findSome? refusal?) = .ok () := by
  have hn : log.findSome? refusal? = none :=
    List.findSome?_eq_none_iff.2 fun p hm => Option.eq_none_iff_forall_ne_some.2 fun err he => by
      cases (hok p hm).symm.trans (refusal?_eq_some_iff.1 he)
  rw [hn]
  rfl

theorem count_map_remove (units : List String) (unit : String) :
    (units.map MatchCall.remove).count (.remove unit) = units.count unit := by
  rw [List.count, List.countP_map, List.count]
  refine List.countP_congr fun u _ => ?_
  simp

theorem count_filter_of_nodup (hd : units.Nodup)
    (hcount : ∀ unit, r'.count unit = r.count unit - units.count unit) (unit : String) :
    (units.filter fun u => r.count u = 1).count unit =
      if r.count unit ≠ 0 ∧ r'.count unit = 0 then 1 else 0 := by
  have hu := hcount unit
  by_cases hm : unit ∈ units
  · have hone := List.count_eq_one_of_mem hd hm
    by_cases h : r.count unit = 1
    · rw [List.count_filter (by simpa using h), hone, if_pos]
      omega
    · rw [if_neg (by omega)]
      exact List.count_eq_zero_of_not_mem fun hf => h (by simpa using (List.mem_filter.1 hf).2)
  · have hzero := List.count_eq_zero_of_not_mem hm
    rw [if_neg (by omega)]
    exact List.count_eq_zero_of_not_mem fun hf => hm (List.mem_filter.1 hf).1

theorem released_of_completes (hs : ∀ unit, r.counts.get? unit ≠ some 0) (h : op.Releases)
    (hc : Completes (r.begin op) log r' result) : Released r op log r' result := by
  obtain ⟨log', r'', result', hc', hok⟩ := exists_completes_release h (fun _ => .ok ()) r
  have hbegin := begin_of_releases h r
  have hcounts (unit : String) : (r.dues op).1.count unit = r.count unit := by
    rw [count, count, counts_dues]
  have hstored : ∀ unit, (r.dues op).1.counts.get? unit ≠ some 0 := by rwa [counts_dues]
  obtain ⟨-, -, -, hcount, hcalls, hresult⟩ :=
    completes_releaseAll hstored (nodup_dues r op) (hbegin ▸ hc)
  obtain ⟨-, -, -, -, -, hresult'⟩ :=
    completes_releaseAll hstored (nodup_dues r op) (hbegin ▸ hc')
  simp only [hcounts] at hcount hcalls
  rw [Option.none_or] at hresult hresult'
  obtain rfl : r'' = r' := (registry_of_completes_releaseAll (hbegin ▸ hc')).trans
    (registry_of_completes_releaseAll (hbegin ▸ hc)).symm
  obtain rfl : result' = .ok () := hresult'.trans (outcome_of_granted hok)
  refine ⟨⟨log', hc', hok⟩, fun unit => ?_, fun unit hm => ?_, error_iff_of_outcome hresult,
    fun err => mem_of_outcome hresult, fun s only forget hop hd => ?_⟩
  · rw [hcalls, count_map_remove]
    exact count_filter_of_nodup (nodup_dues r op) hcount unit
  · rw [hcalls] at hm
    obtain ⟨u, -, hu⟩ := List.mem_map.1 hm
    cases hu
  · subst hop
    rw [dues_of_detached hd] at hcount hcalls
    exact ⟨List.map_eq_nil_iff.1 hcalls, hcount⟩

end UnitControl.Registry
