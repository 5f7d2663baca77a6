import UnitControl.Proofs.Registry.Atomic

/-!
# Operations that are taken back

A subscription that cannot be watched is taken back by the operation that would end it later. That
restores the registry after a subscription to one unit, and after a sink was given to a detached
set. A set that was attached before is detached: the end of a sink does not tell whether the
references of the members were there before it.
-/

namespace UnitControl

namespace Registry

variable {r r' : Registry} {log : List (MatchCall × Except Error Unit)}

/-- An operation and then another one that takes it back, with the bus granting every call. -/
def TakesBack (r : Registry) (op next : Operation) (log : List (MatchCall × Except Error Unit))
    (r' : Registry) : Prop :=
  ∃ log₁ r₁ log₂, Completes (r.begin op) log₁ r₁ (.ok ()) ∧
    Completes (r₁.begin next) log₂ r' (.ok ()) ∧ log = log₁ ++ log₂ ∧ ∀ p ∈ log, p.2 = .ok ()

/-- Nothing has happened to sets, to subscriptions and to counts, and the calls on the bus leave the
rules that were there. -/
structure Untouched (r r' : Registry) (log : List (MatchCall × Except Error Unit)) : Prop where
  sets : ∀ s, r'.set s = r.set s
  directs : r'.directs = r.directs
  counts : ∀ unit, r'.count unit = r.count unit
  rules : ∀ rules, (afterCalls rules log).Perm rules

/-- With every call granted, a re-attachment adds the rules of the members that have no reference,
and takes one reference on each. -/
theorem Ahead.attach {before : Registry} {s : SetId} {feed : FeedId} {held rest : List String}
    (h : Ahead before r held) (hd : (held ++ rest).Nodup)
    (hc : Completes (r.holdAll s feed held rest) log r' (.ok ()))
    (hok : ∀ p ∈ log, p.2 = .ok ()) :
    log = ((rest.filter fun u => before.count u = 0).map fun u => (.add u, .ok ())) ∧
      ∃ r₁, r' = r₁.install s feed ∧ Ahead before r₁ (held ++ rest) := by
  induction rest generalizing r held log with
  | nil =>
    cases hc
    exact ⟨rfl, r, rfl, by rwa [List.append_nil]⟩
  | cons unit rest ih =>
    have hd' : (held ++ [unit] ++ rest).Nodup := by simpa using hd
    have hu : unit ∉ held := fun hm =>
      (List.nodup_append.1 hd).2.2 unit hm unit List.mem_cons_self rfl
    have hcount : r.count unit = before.count unit := by
      rw [h.count_eq, List.count_eq_zero_of_not_mem hu, Nat.add_zero]
    rw [List.append_cons]
    unfold holdAll at hc
    by_cases hz : r.count unit = 0
    · rw [if_pos hz] at hc
      rw [hcount] at hz
      cases hc with
      | @ask _ _ _ _ answer _ log hc =>
        obtain rfl : answer = .ok () := hok _ List.mem_cons_self
        obtain ⟨rfl, hr₁⟩ := ih (h.hold unit) hd' hc fun p hm =>
          hok p (List.mem_cons_of_mem _ hm)
        rw [List.filter_cons_of_pos (by simpa using hz)]
        exact ⟨rfl, hr₁⟩
    · rw [if_neg hz] at hc
      rw [hcount] at hz
      rw [List.filter_cons_of_neg (by simpa using hz)]
      exact ih (h.hold unit) hd' hc hok

theorem untouched_of_ahead {units : List String} {log₁ log₂ : List (MatchCall × Except Error Unit)}
    (h : Ahead r r' []) (h₁ : log₁ = units.map fun u => (.add u, .ok ()))
    (h₂ : log₂.map Prod.fst = units.map .remove) (hok : ∀ p ∈ log₂, p.2 = .ok ()) :
    Untouched r r' (log₁ ++ log₂) where
  sets := h.set_eq
  directs := h.directs_eq
  counts := h.count_eq
  rules rules := by
    rw [h₁, afterCalls, List.foldl_append]
    exact afterCalls_remove_perm (afterCalls_add_perm rules units) log₂ h₂ hok

theorem TakesBack.untouched_subscribe {feed : FeedId} {unit : String}
    (hs : ∀ unit, r.counts.get? unit ≠ some 0) (hf : r.directs.get? feed = none)
    (h : TakesBack r (.subscribe feed unit) (.unsubscribe feed) log r') : Untouched r r' log := by
  obtain ⟨log₁, r₁, log₂, h₁, h₂, rfl, hok⟩ := h
  have hok₂ : ∀ p ∈ log₂, p.2 = .ok () := fun p hm => hok p (List.mem_append_right _ hm)
  obtain ⟨rfl, hlog₁⟩ : r₁ = (r.hold unit).addDirect feed unit ∧
      log₁ = ([unit].filter fun u => r.count u = 0).map fun u => (.add u, .ok ()) := by
    simp only [begin] at h₁
    split at h₁
    · rename_i hz
      cases h₁ with
      | @ask _ _ _ _ answer _ log h₁ =>
        obtain rfl : answer = .ok () := hok _ List.mem_cons_self
        cases h₁
        rw [List.filter_cons_of_pos (by simpa using hz)]
        exact ⟨rfl, rfl⟩
    · rename_i hz
      cases h₁
      rw [List.filter_cons_of_neg (by simpa using hz)]
      exact ⟨rfl, rfl⟩
  have hget : (r.directs.put feed unit).get? feed = some unit := Table.get?_put_self _ _ _
  have hbegin : ((r.hold unit).addDirect feed unit).begin (.unsubscribe feed) =
      (r.hold unit).releaseAll none [unit] := by
    simp only [begin, addDirect, hold, hget, Table.erase_put_of_none hf]
  rw [hbegin] at h₂
  obtain ⟨hahead, hlog₂, -⟩ := ((ahead_self hs).hold unit).release (by simp) h₂
  exact untouched_of_ahead hahead hlog₁ hlog₂ hok₂

/-- A set without its sink and without the references of its members. -/
def unhooked (r : Registry) (s : SetId) : UnitSet :=
  { r.set s with attached := false, sink := none }

theorem begin_attach_of_detached {s : SetId} (h : (r.set s).attached = false) (feed : FeedId) :
    r.begin (.attach s feed) =
      (r.putSet s { r.set s with sink := none }).holdAll s feed [] (r.set s).members := by
  simp only [begin]
  rw [if_neg (by simp [h])]

theorem begin_detach_install (r : Registry) (s : SetId) (feed : FeedId) :
    (r.install s feed).begin (.detach s (some feed) false) =
      ((r.install s feed).putSet s (r.unhooked s)).releaseAll none (r.set s).members := by
  simp [begin, install, putSet, isCurrent, unhooked]

theorem set_detach_install (r : Registry) (s t : SetId) (feed : FeedId) :
    ((r.install s feed).putSet s (r.unhooked s)).set t =
      if t = s then r.unhooked s else r.set t := by
  rw [set_putSet]
  split
  · rfl
  · rename_i ht
    rw [install, set_putSet, if_neg ht]

theorem TakesBack.untouched_attach {s : SetId} {feed : FeedId} (hw : r.Wired)
    (hs : ∀ unit, r.counts.get? unit ≠ some 0) (hdet : (r.set s).attached = false)
    (h : TakesBack r (.attach s feed) (.detach s (some feed) false) log r') :
    Untouched r r' log := by
  obtain ⟨log₁, r₁, log₂, h₁, h₂, rfl, hok⟩ := h
  have hok₁ : ∀ p ∈ log₁, p.2 = .ok () := fun p hm => hok p (List.mem_append_left _ hm)
  have hok₂ : ∀ p ∈ log₂, p.2 = .ok () := fun p hm => hok p (List.mem_append_right _ hm)
  rw [begin_attach_of_detached hdet] at h₁
  obtain ⟨hlog₁, x, rfl, hahead⟩ :=
    (ahead_bare hw hs hdet).attach (r.set s).distinct h₁ hok₁
  have hx : x.set s = r.set s := hahead.set_eq s
  rw [begin_detach_install, hx] at h₂
  have hdetached : Ahead r ((x.install s feed).putSet s (x.unhooked s)) (r.set s).members := by
    refine ⟨fun t => ?_, hahead.directs_eq, hahead.count_eq, hahead.stored_ne_zero⟩
    rw [set_detach_install]
    split
    · rename_i hts
      rw [hts, unhooked, hx, ← hdet, ← hw.bare s hdet]
    · exact hahead.set_eq t
  obtain ⟨hback, hlog₂, -⟩ := hdetached.release (r.set s).distinct h₂
  exact untouched_of_ahead hback hlog₁ hlog₂ hok₂

/-- What is left when the sink of an attached set is taken back: the set is detached, the references
of its members are gone, and so are the rules of those that nobody else holds. -/
structure LeavesDetached (s : SetId) (r r' : Registry)
    (log : List (MatchCall × Except Error Unit)) : Prop where
  set_eq : r'.set s = r.unhooked s
  others : ∀ t, t ≠ s → r'.set t = r.set t
  directs : r'.directs = r.directs
  counts : ∀ unit, r'.count unit = r.count unit - (r.set s).members.count unit
  calls : log.map Prod.fst = ((r.set s).members.filter fun u => r.count u = 1).map .remove

theorem TakesBack.leavesDetached_attach {s : SetId} {feed : FeedId}
    (hs : ∀ unit, r.counts.get? unit ≠ some 0) (hatt : (r.set s).attached = true)
    (h : TakesBack r (.attach s feed) (.detach s (some feed) false) log r') :
    LeavesDetached s r r' log := by
  obtain ⟨log₁, r₁, log₂, h₁, h₂, rfl, -⟩ := h
  simp only [begin, hatt, if_true] at h₁
  cases h₁
  rw [begin_detach_install] at h₂
  have hs₁ : ∀ unit, ((r.install s feed).putSet s (r.unhooked s)).counts.get? unit ≠ some 0 := hs
  obtain ⟨hsets, hdirects, -, hcount, hlog, -⟩ := completes_releaseAll hs₁ (r.set s).distinct h₂
  have hset (t : SetId) : r'.set t = if t = s then r.unhooked s else r.set t := by
    rw [← set_detach_install r s t feed, set, set, hsets]
  exact ⟨(hset s).trans (if_pos rfl), fun t ht => (hset t).trans (if_neg ht), hdirects, hcount,
    hlog⟩

def Progress.Succeeds : Progress → Prop
  | done result => result = .ok ()
  | ask _ (.releasing failure _) => failure = none
  | ask _ _ => True

theorem succeeds_releaseAll (r : Registry) (units : List String) :
    (r.releaseAll none units).2.Succeeds := by
  induction units generalizing r with
  | nil => rfl
  | cons unit rest ih =>
    unfold releaseAll
    cases r.letGo unit with
    | mk r₁ last =>
      cases last with
      | false => exact ih r₁
      | true => rfl

theorem succeeds_holdAll (r : Registry) (s : SetId) (feed : FeedId) (held rest : List String) :
    (r.holdAll s feed held rest).2.Succeeds := by
  induction rest generalizing r held with
  | nil => rfl
  | cons unit rest ih =>
    unfold holdAll
    split
    · trivial
    · exact ih (r.hold unit) (held ++ [unit])

theorem succeeds_begin (r : Registry) (op : Operation) : (r.begin op).2.Succeeds := by
  cases op with
  | add s unit =>
    simp only [begin]
    split
    · rfl
    · split
      · split
        · trivial
        · rfl
      · rfl
  | attach s feed =>
    simp only [begin]
    split
    · rfl
    · exact succeeds_holdAll _ s feed [] _
  | subscribe feed unit =>
    simp only [begin]
    split
    · trivial
    · rfl
  | remove s unit =>
    rw [begin_remove]
    exact succeeds_releaseAll _ _
  | detach s only forget =>
    rw [begin_detach]
    exact succeeds_releaseAll _ _
  | unsubscribe feed =>
    rw [begin_unsubscribe]
    exact succeeds_releaseAll _ _

theorem succeeds_resume {call : MatchCall} {pause : Pause}
    (h : (Progress.ask call pause).Succeeds) (r : Registry) :
    (r.resume (.ok ()) pause).2.Succeeds := by
  cases pause with
  | joining s unit => rfl
  | subscribing feed unit => rfl
  | reattaching s feed held unit rest => exact succeeds_holdAll _ s feed _ rest
  | releasing failure rest =>
    obtain rfl : failure = none := h
    exact succeeds_releaseAll r rest

theorem ok_of_granted {p : Registry × Progress} {result : Except Error Unit}
    (h : p.2.Succeeds) (hc : Completes p log r' result) (hok : ∀ q ∈ log, q.2 = .ok ()) :
    result = .ok () := by
  induction hc with
  | done => exact h
  | @ask r r' call pause answer result log _ ih =>
    obtain rfl : answer = .ok () := hok _ List.mem_cons_self
    exact ih (succeeds_resume h r) fun q hm => hok q (List.mem_cons_of_mem _ hm)

end Registry

end UnitControl
