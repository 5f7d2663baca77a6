import UnitControl.Proofs.Engine.Tenure
import UnitControl.Proofs.Registry.Membership

/-!
# Where operations come from

Whoever waits for an operation on the registry has made a call for it, or takes back what it has
made a call for. The task of a subscription does nothing but end it.
-/

namespace UnitControl

namespace Registry.Operation

def IsEnding : Operation → Prop
  | detach _ only forget => only ≠ none ∧ forget = false
  | unsubscribe _ => True
  | _ => False

theorem IsEnding.isChange {op : Operation} (h : op.IsEnding) : op.isChange = false := by
  cases op with
  | detach s only forget =>
    obtain ⟨-, rfl⟩ := h
    cases only <;> rfl
  | unsubscribe feed => rfl
  | _ => exact h.elim

theorem IsEnding.isPlain {op : Operation} (h : op.IsEnding) : op.IsPlain := by
  cases op with
  | detach s only forget =>
    intro hforget
    cases h.2.symm.trans hforget
  | unsubscribe feed => trivial
  | _ => exact h.elim

end Registry.Operation

namespace Call

open Registry (Operation)

/-- The change of a set that a call is for, if the name of its unit is one. -/
def change? : Call → Option Operation
  | add s unit => (Name.canonical unit).toOption.map (.add s)
  | remove s unit => (Name.canonical unit).toOption.map (.remove s)
  | close s => some (.detach s none true)
  | _ => none

/-- The operation for which a call leaves the caller with this number waiting, and what the caller
does then. -/
def operation? (id : CallerId) : Call → Option (Operation × Finish)
  | attach s _ _ refusal =>
    some (.attach s id, Engine.finishFor (.detach s (some id) false) refusal)
  | subscribe unit _ refusal => (Name.canonical unit).toOption.map fun unit =>
      (.subscribe id unit, Engine.finishFor (.unsubscribe id) refusal)
  | call => call.change?.map (·, .answer)

/-- What a call wants to know from the registry, if the name of its unit is one. -/
def query? : Call → Option Query
  | contains s unit => (Name.canonical unit).toOption.map (.contains s)
  | members s => some (.members s)
  | references unit => (Name.canonical unit).toOption.map .references
  | _ => none

/-- What such a call leaves its caller waiting for until the caller has its answer. -/
def wait? (call : Call) : Option Wait :=
  (call.change?.map (.operation · .answer)).or (call.query?.map .query)

variable {call : Call} {id : CallerId} {op : Operation} {finish : Finish} {w : Wait}

theorem wait?_of_change? (h : call.change? = some op) :
    call.wait? = some (.operation op .answer) := by
  rw [wait?, h]
  rfl

theorem wait?_cases (h : call.wait? = some w) :
    (∃ op, call.change? = some op ∧ w = .operation op .answer) ∨
      ∃ q, call.query? = some q ∧ w = .query q := by
  obtain h | ⟨-, h⟩ := Option.or_eq_some_iff.1 h
  · obtain ⟨op, hop, rfl⟩ := Option.map_eq_some_iff.1 h
    exact .inl ⟨op, hop, rfl⟩
  · obtain ⟨q, hq, rfl⟩ := Option.map_eq_some_iff.1 h
    exact .inr ⟨q, hq, rfl⟩

theorem isChange_of_change? (h : call.change? = some op) : op.isChange = true := by
  cases call with
  | add s unit | remove s unit =>
    obtain ⟨name, -, rfl⟩ := Option.map_eq_some_iff.1 h
    rfl
  | close s =>
    cases h
    rfl
  | _ => cases h

theorem isPlain_of_operation? (h : call.operation? id = some (op, finish)) : op.IsPlain := by
  cases call with
  | attach s values faults refusal =>
    cases h
    trivial
  | subscribe unit values refusal =>
    obtain ⟨name, -, hn⟩ := Option.map_eq_some_iff.1 h
    cases hn
    trivial
  | add s unit | remove s unit =>
    obtain ⟨op', hop, hn⟩ := Option.map_eq_some_iff.1 h
    obtain ⟨name, -, rfl⟩ := Option.map_eq_some_iff.1 hop
    cases hn
    trivial
  | close s =>
    cases h
    exact fun _ => rfl
  | _ => cases h

theorem operation?_of_change? (h : call.change? = some op) :
    call.operation? id = some (op, .answer) := by
  cases call with
  | add | remove | close => simp only [operation?, h, Option.map_some]
  | _ => cases h

/-- What is to be done for a call is a change, or something that the same call may have to end. -/
theorem operation?_cases (h : call.operation? id = some (op, finish)) :
    call.change? = some op ∧ finish = .answer ∨
      op.isChange = false ∧ ∀ next cause, finish = .undo next cause → next.IsEnding := by
  have hundo {ending next : Operation} {cause : String} {refusal : Option String}
      (he : ending.IsEnding) (hf : Engine.finishFor ending refusal = .undo next cause) :
      next.IsEnding := by
    cases refusal with
    | none => cases hf
    | some reason =>
      cases hf
      exact he
  cases call with
  | attach s values faults refusal =>
    cases h
    exact .inr ⟨rfl, fun _ _ => hundo ⟨by simp, rfl⟩⟩
  | subscribe unit values refusal =>
    obtain ⟨name, -, hn⟩ := Option.map_eq_some_iff.1 h
    cases hn
    exact .inr ⟨rfl, fun _ _ => hundo trivial⟩
  | _ =>
    simp only [operation?] at h
    obtain ⟨op', hop, hn⟩ := Option.map_eq_some_iff.1 h
    cases hn
    exact .inl ⟨hop, rfl⟩

end Call

namespace Engine

open Registry (Operation)

variable {e e' : Engine} {event : Event} {events : List Event} {id c : CallerId} {feed : FeedId}
  {op : Operation} {finish : Finish} {task : Task}

/-- The operation for which a caller waits, and what it does then. -/
def awaited? (e : Engine) (c : CallerId) : Option (Operation × Finish) :=
  match e.callers.get? c with
  | some (.operation op finish) => some (op, finish)
  | _ => none

theorem awaited?_eq_some_iff :
    e.awaited? c = some (op, finish) ↔ e.callers.get? c = some (.operation op finish) := by
  unfold awaited?
  split
  · rename_i op' finish' hw
    simp [hw]
  · rename_i hn
    exact ⟨fun h => (by cases h), fun h => absurd h (hn op finish)⟩

theorem awaited?_of_callers (h : e'.callers = e.callers) : e'.awaited? c = e.awaited? c := by
  rw [awaited?, awaited?, h]

theorem awaited?_await (e : Engine) (id : CallerId) (op : Operation) (finish : Finish)
    (c : CallerId) :
    (e.await id (.operation op finish)).awaited? c =
      if c = id then some (op, finish) else e.awaited? c := by
  simp only [awaited?, get?_callers_await]
  by_cases hc : c = id <;> simp only [hc, if_true, if_false]

theorem awaited?_of_await {w : Wait} (hw : ∀ op finish, w ≠ .operation op finish)
    (he : e.awaited? id = none) (c : CallerId) : (e.await id w).awaited? c = e.awaited? c := by
  simp only [awaited?, get?_callers_await]
  by_cases hc : c = id
  · subst hc
    rw [if_pos rfl]
    refine Eq.trans ?_ he.symm
    split
    · rename_i op finish hop
      exact absurd (Option.some.inj hop) (hw op finish)
    · rfl
  · rw [if_neg hc]

theorem awaited?_submit (he : e.awaited? id = none) (request : JobRequest)
    (limit : Option (Nat × Error)) (c : CallerId) :
    (e.submit id request limit).awaited? c = e.awaited? c := by
  unfold submit
  split
  · rfl
  · exact awaited?_of_await (w := .job _) (by simp) he c

theorem awaited?_submitWithin (he : e.awaited? id = none) (request : JobRequest) (d : Duration)
    (ago : Nat) (looks : Bool) (c : CallerId) :
    (e.submitWithin id request d ago looks).awaited? c = e.awaited? c := by
  obtain ⟨err, -, h⟩ | ⟨deadline, h⟩ := submitWithin_cases e id request d ago looks
  · rw [h]
    rfl
  · rw [h]
    exact awaited?_submit he _ _ c

theorem awaited?_operateOn (he : e.awaited? id = none) (unit : String) (op : String → Operation)
    (c : CallerId) : (e.operateOn id unit op).awaited? c =
      if c = id then (Name.canonical unit).toOption.map fun unit => (op unit, .answer)
      else e.awaited? c := by
  unfold operateOn
  split
  · rename_i name hname
    rw [hname]
    exact awaited?_await e id _ _ c
  · rename_i fault hname
    rw [hname]
    by_cases hc : c = id
    · rw [if_pos hc, hc]
      exact he
    · exact (if_neg hc).symm

/-- A call leaves its caller waiting for its operation, if it has one, and everybody else for what
they waited for. -/
theorem awaited?_call (he : e.awaited? id = none) (call : Call) (c : CallerId) :
    (e.call id call).awaited? c = if c = id then call.operation? id else e.awaited? c := by
  have hnone {x : Engine} (hx : x.awaited? c = e.awaited? c) :
      x.awaited? c = if c = id then none else e.awaited? c := by
    rw [hx]
    split
    · rename_i hc
      rw [hc]
      exact he
    · rfl
  have hquery (q : Query) : (e.queryLater id q).awaited? c = e.awaited? c :=
    awaited?_of_await (w := .query q) (by simp) he c
  cases call with
  | submit request limit =>
    cases limit with
    | none => exact hnone (awaited?_submit he _ _ c)
    | some d => exact hnone (awaited?_submitWithin he request d 0 false c)
  | submitLate request d ago looks =>
    exact hnone (awaited?_submitWithin he request d ago looks c)
  | job kind unit mode =>
    simp only [Engine.call]
    split
    · exact hnone (awaited?_submit he _ _ c)
    · exact hnone rfl
  | pendingJobs =>
    simp only [Engine.call]
    split
    · exact hnone rfl
    · exact hnone (awaited?_of_await (w := .pending) (by simp) he c)
  | listUnits => exact hnone (awaited?_of_await (w := .listing) (by simp) he c)
  | add s unit | remove s unit =>
    refine (awaited?_operateOn he unit _ c).trans ?_
    simp only [Call.operation?, Call.change?, Option.map_map]
    rfl
  | contains s unit | references unit =>
    simp only [Engine.call]
    split
    · exact hnone (hquery _)
    · exact hnone rfl
  | members s => exact hnone (hquery _)
  | attach s values faults refusal =>
    exact awaited?_await (e.openFeed id values faults (.detach s (some id) false)) id _ _ c
  | close s => exact awaited?_await { e with sets := e.sets.filter (· != s) } id _ _ c
  | subscribe unit values refusal =>
    let x := e.openFeed id values 0 (.unsubscribe id)
    simp only [Engine.call, Call.operation?]
    split
    · rename_i name hname
      rw [hname]
      exact awaited?_await x id _ _ c
    · rename_i fault hname
      rw [hname]
      have hx : (x.abandon (some id)).awaited? c = x.awaited? c :=
        awaited?_of_callers (alike_abandon (some id)).callers
      exact hnone hx

theorem get?_callers_queryLater {name : String} {ask : String → Query} {q : Query} {x : Engine}
    (hq : (Name.canonical name).toOption.map ask = some q) :
    (match Name.canonical name with
      | .ok unit => e.queryLater id (ask unit)
      | .error _ => x).callers.get? id = some (.query q) := by
  obtain ⟨unit, hname, rfl⟩ := Option.map_eq_some_iff.1 hq
  cases hc : Name.canonical name with
  | ok unit' =>
    cases hc ▸ hname
    exact Table.get?_put_self _ _ _
  | error fault => cases hc ▸ hname

theorem get?_callers_call {call : Call} {w : Wait} (hw : call.wait? = some w)
    (he : e.awaited? id = none) : (e.call id call).callers.get? id = some w := by
  obtain ⟨op, hop, rfl⟩ | ⟨q, hq, rfl⟩ := Call.wait?_cases hw
  · refine awaited?_eq_some_iff.1 ((awaited?_call he call id).trans ?_)
    rw [if_pos rfl, Call.operation?_of_change? hop]
  · cases call with
    | contains s unit | references unit => exact get?_callers_queryLater hq
    | members s =>
      cases hq
      exact Table.get?_put_self _ _ _
    | _ => cases hq

theorem outlets_submit (e : Engine) (id : CallerId) (request : JobRequest)
    (limit : Option (Nat × Error)) : (e.submit id request limit).outlets = e.outlets := by
  unfold submit
  split <;> rfl

theorem outlets_submitWithin (e : Engine) (id : CallerId) (request : JobRequest) (d : Duration)
    (ago : Nat) (looks : Bool) : (e.submitWithin id request d ago looks).outlets = e.outlets := by
  obtain ⟨err, -, h⟩ | ⟨deadline, h⟩ := submitWithin_cases e id request d ago looks
  · rw [h]
    rfl
  · rw [h]
    exact outlets_submit e id request _

theorem ending_of_call {call : Call} {o : Outlet}
    (h : (e.call id call).outlets.get? id = some o) :
    e.outlets.get? id = some o ∨ o.ending.IsEnding := by
  have hopen {x : Engine} {values faults : Nat} {ending : Operation} (he : ending.IsEnding)
      (hx : x.outlets.get? id = (e.openFeed id values faults ending).outlets.get? id)
      (ho : x.outlets.get? id = some o) : o.ending.IsEnding := by
    rw [hx] at ho
    cases (Table.get?_put_self _ _ _).symm.trans ho
    exact he
  cases call with
  | submit request limit =>
    cases limit with
    | none => exact .inl (outlets_submit e id request none ▸ h)
    | some d => exact .inl (outlets_submitWithin e id request d 0 false ▸ h)
  | submitLate request d ago looks =>
    exact .inl (outlets_submitWithin e id request d ago looks ▸ h)
  | job kind unit mode =>
    simp only [Engine.call] at h
    split at h
    · exact .inl (outlets_submit e id _ none ▸ h)
    · exact .inl h
  | pendingJobs | contains s unit | references unit =>
    simp only [Engine.call] at h
    split at h <;> exact .inl h
  | listUnits | members s | close s => exact .inl h
  | add s unit | remove s unit =>
    simp only [Engine.call, operateOn] at h
    split at h <;> exact .inl h
  | attach s values faults refusal =>
    have he : (Operation.detach s (some id) false).IsEnding := ⟨by simp, rfl⟩
    exact .inr (hopen he rfl h)
  | subscribe unit values refusal =>
    let x := e.openFeed id values 0 (.unsubscribe id)
    have hx : x.outlets.get? id = some ⟨.ofCapacities values 0, .unsubscribe id, .expected false⟩ :=
      Table.get?_put_self _ _ _
    simp only [Engine.call] at h
    split at h
    · cases hx.symm.trans h
      exact .inr trivial
    · have habandon := (PassesBy.keptByOperations (id + 1)).abandon x (some id)
      obtain ⟨o', ho', he, -⟩ := habandon.feeds id _ (Nat.ne_of_lt (Nat.lt_succ_self id)) hx
      cases ho'.symm.trans h
      exact .inr (he ▸ trivial)

theorem ending_of_step (hopens : e.Opens) (hs : e.step event = some e') {o : Outlet}
    (ho : e'.outlets.get? feed = some o) :
    (∃ o₀, e.outlets.get? feed = some o₀ ∧ o.ending = o₀.ending) ∨ o.ending.IsEnding := by
  refine of_step (P := fun x => x.outlets.get? feed = some o → _) hs (fun x hr ho => ?_)
    (fun _ h => h) ho
  have hbox : x.mail.boxes feed ≠ none := by simp [mail, ho]
  cases hold : e.outlets.get? feed with
  | some o₀ =>
    have hlt : feed < e.fresh := hopens.lt feed (by simp [mail, hold])
    obtain ⟨o', ho', he, -⟩ := stays_of_reaction Feed.lasting_isClosed hr hlt hold
    cases ho'.symm.trans ho
    exact .inl ⟨o₀, rfl, he⟩
  | none =>
    obtain h | ⟨rfl, hn⟩ := (shift_of_reaction hr).boxes_of_some hbox
    · simp [mail, hold] at h
    · have hnone (hx : x.outlets = e.outlets) : o.ending.IsEnding := by
        rw [hx, hold] at ho
        cases ho
      right
      cases hr with
      | call hp =>
        obtain h | h := ending_of_call ho
        · cases hold.symm.trans h
        · exact h
      | poll hp => exact hnone rfl
      | openSet hp => exact hnone rfl
      | _ => cases hn

/-- An operation that is done in the name of a caller has come to `p`. Whoever waits for one then
has waited for it before, or takes one back. -/
theorem awaited?_of_book {p : Registry × Registry.Progress}
    (h : (e.book task p).awaited? c = some (op, finish)) :
    e.awaited? c = some (op, finish) ∨
      ∃ first cause, e.awaited? c = some (first, .undo op cause) ∧
        finish = .fail (.noRuntime "unitlink-cancel" cause) := by
  obtain ⟨r, progress⟩ := p
  cases progress with
  | ask call pause => exact .inl h
  | done result =>
    rw [book_done] at h
    obtain ⟨-, hs⟩ | ⟨id, op', finish', rfl, hid, ⟨next, cause, rfl, hs⟩ | ⟨outcome, hs⟩⟩ :=
      settle_cases { e with registry := r } task result
    · rw [hs] at h
      exact .inl h
    · rw [hs, awaited?_await] at h
      split at h
      · rename_i hc
        subst hc
        cases h
        exact .inr ⟨op', _, awaited?_eq_some_iff.2 hid, rfl⟩
      · exact .inl h
    · rw [hs, awaited?_eq_some_iff, get?_callers_answer] at h
      split at h
      · cases h
      · exact .inl (awaited?_eq_some_iff.2 h)

/-- Whoever waits for an operation after a step has waited for it before, has just made the call for
it, or takes an operation back that he has made a call for. -/
theorem awaited?_of_step (ho : e.Orderly) (hs : e.step event = some e')
    (h : e'.awaited? c = some (op, finish)) :
    e.awaited? c = some (op, finish) ∨
      (∃ call, event = .call call ∧ c = e.fresh ∧ call.operation? c = some (op, finish)) ∨
      ∃ first cause, e.awaited? c = some (first, .undo op cause) ∧
        finish = .fail (.noRuntime "unitlink-cancel" cause) := by
  obtain ⟨x, hr, hx⟩ := reaction_alike_of_step hs
  rw [awaited?_of_callers hx.callers] at h
  have hfresh : x.fresh = if event.numbers then e.fresh + 1 else e.fresh :=
    (shift_of_reaction hr).fresh
  have hnone : e.awaited? e.fresh = none := by
    simp only [awaited?, ho.callers_fresh]
  cases hn : event.numbers with
  | true =>
    cases hr with
    | call hp =>
      rw [awaited?_call (e := { e with fresh := e.fresh + 1 }) hnone] at h
      split at h
      · rename_i hc
        exact .inr (.inl ⟨_, rfl, hc, hc ▸ h⟩)
      · exact .inl h
    | poll hp => exact .inl h
    | openSet hp => exact .inl h
    | _ => cases hn
  | false =>
    obtain ⟨e₁, e₂, h₁, hm, h₂⟩ := moves_of_reaction hr
    rw [awaited?_of_callers h₂.callers] at h
    have hback := awaited?_of_callers (c := c) h₁.callers
    obtain hsp | ⟨w, hw, rfl⟩ | ⟨task, op', hh, hi, rfl⟩ | ⟨holder, answer, hh, rfl⟩ := hm.cases
    · rw [← hback]
      exact .inl (awaited?_eq_some_iff.2 (hsp.operations _ _ _ (awaited?_eq_some_iff.1 h)))
    · have hf : e₁.fresh + 1 = x.fresh := h₂.fresh.symm
      rw [hfresh, hn, h₁.fresh] at hf
      simp at hf
    · rw [← hback]
      exact (awaited?_of_book h).imp_right .inr
    · rw [← hback]
      exact (awaited?_of_book h).imp_right .inr

/-- The call that an event makes, if it makes one for the caller with this number. -/
def called? (e : Engine) (c : CallerId) : Event → Option Call
  | .call call => if c = e.fresh then some call else none
  | _ => none

/-- The call that the caller with this number makes in a run. -/
def callOf (c : CallerId) : Engine → List Event → Option Call
  | _, [] => none
  | e, event :: rest => (e.called? c event).or ((e.step event).bind (callOf c · rest))

theorem called?_eq_some_iff {call : Call} :
    e.called? c event = some call ↔ c = e.fresh ∧ event = .call call := by
  cases event with
  | call call' => simp [called?]
  | _ => simp [called?]

theorem callers_of_called (ho : e.Orderly) (hs : e.step event = some e') {call : Call}
    (hc : e.called? c event = some call) : c < e'.fresh ∧
      ∀ w, call.wait? = some w → e'.callers.get? c = some w := by
  obtain ⟨rfl, rfl⟩ := called?_eq_some_iff.1 hc
  have hnone : { e with fresh := e.fresh + 1 }.awaited? e.fresh = none := by
    simp only [awaited?, ho.callers_fresh]
  refine of_step hs (fun x hr => ?_) fun _ => id
  have hx : x.fresh = e.fresh + 1 := (shift_of_reaction hr).fresh
  cases hr with
  | call hp =>
    exact ⟨Nat.lt_of_lt_of_eq (Nat.lt_succ_self _) hx.symm, fun w hw => get?_callers_call hw hnone⟩

/-- With the calls that have been made, as far as they are known, all operations that are still to
be done go back to calls. -/
structure Assigned (calls : CallerId → Option Call) (e : Engine) : Prop where
  numbered : ∀ c call, calls c = some call → c < e.fresh
  waits : ∀ c op finish, e.awaited? c = some (op, finish) → ∃ call, calls c = some call ∧
    (call.operation? c = some (op, finish) ∨
      ∃ first cause, call.operation? c = some (first, .undo op cause) ∧
        finish = .fail (.noRuntime "unitlink-cancel" cause))
  lasts : ∀ c call w, calls c = some call → call.wait? = some w →
    ∀ w', e.callers.get? c = some w' → w' = w
  endings : ∀ feed o, e.outlets.get? feed = some o → o.ending.IsEnding

namespace Assigned

variable {calls : CallerId → Option Call}

theorem start (capacity : Nat) (timer : Timer) :
    (Engine.start capacity timer).Assigned fun _ => none where
  numbered c call h := by cases h
  waits c op finish h := by cases h
  lasts c call w h := by cases h
  endings feed o h := by cases h

/-- Who waits for a change has made the call for it, and does nothing else when it is over. -/
theorem change (h : e.Assigned calls) (hw : e.awaited? c = some (op, finish))
    (hop : op.isChange = true) :
    finish = .answer ∧ ∃ call, calls c = some call ∧ call.change? = some op := by
  obtain ⟨call, hc, hcall | ⟨first, cause, hcall, -⟩⟩ := h.waits c op finish hw
  · obtain ⟨hchange, hf⟩ | ⟨hn, -⟩ := Call.operation?_cases hcall
    · exact ⟨hf, call, hc, hchange⟩
    · cases hn.symm.trans hop
  · obtain ⟨-, hf⟩ | ⟨-, hundo⟩ := Call.operation?_cases hcall
    · cases hf
    · cases (hundo op _ rfl).isChange.symm.trans hop

/-- Only callers intend changes. -/
theorem caller_of_intends (h : e.Assigned calls) (hi : e.Intends task op)
    (hop : op.isChange = true) : ∃ c, task = .caller c ∧ e.awaited? c = some (op, .answer) ∧
      ∃ call, calls c = some call ∧ call.change? = some op := by
  cases task with
  | caller c =>
    obtain ⟨finish, hw⟩ := hi
    have hw := awaited?_eq_some_iff.2 hw
    obtain ⟨rfl, hcall⟩ := h.change hw hop
    exact ⟨c, rfl, hw, hcall⟩
  | watcher feed =>
    obtain ⟨o, hout, rfl⟩ := hi
    cases (h.endings feed o hout).isChange.symm.trans hop
  | dispatcher => exact hi.elim
  | poller id => exact hi.elim

theorem isPlain (h : e.Assigned calls) (hi : e.Intends task op) : op.IsPlain := by
  cases task with
  | caller c =>
    obtain ⟨finish, hw⟩ := hi
    obtain ⟨call, -, hcall | ⟨first, cause, hcall, -⟩⟩ :=
      h.waits c op finish (awaited?_eq_some_iff.2 hw)
    · exact Call.isPlain_of_operation? hcall
    · obtain ⟨-, hf⟩ | ⟨-, hundo⟩ := Call.operation?_cases hcall
      · cases hf
      · exact (hundo op _ rfl).isPlain
  | watcher feed =>
    obtain ⟨o, hout, rfl⟩ := hi
    exact (h.endings feed o hout).isPlain
  | dispatcher => exact hi.elim
  | poller id => exact hi.elim

theorem takesNothingBack (h : e.Assigned calls) {call : Call} {w : Wait} (hc : calls c = some call)
    (hw : call.wait? = some w) : e.TakesNothingBack c := by
  intro op next cause hundo
  cases h.lasts c call w hc hw _ hundo
  obtain ⟨op', -, hop⟩ | ⟨q, -, hq⟩ := Call.wait?_cases hw
  · cases hop
  · cases hq

theorem step (hatt : e.Attained) (hopens : e.Opens) (h : e.Assigned calls)
    (hs : e.step event = some e') :
    e'.Assigned fun c => (calls c).or (e.called? c event) := by
  have hfresh := fresh_le_of_step hs
  have hold {c : CallerId} {call : Call} (hc : calls c = some call) :
      ((calls c).or (e.called? c event)) = some call := by
    rw [hc, Option.some_or]
  refine ⟨fun c call hc => ?_, fun c op finish hw => ?_, fun c call w hc hw w' hw' => ?_,
    fun feed o ho => ?_⟩
  · obtain hc | ⟨-, hc⟩ := Option.or_eq_some_iff.1 hc
    · exact Nat.lt_of_lt_of_le (h.numbered c call hc) hfresh
    · exact (callers_of_called hatt.orderly hs hc).1
  · obtain hw | ⟨call, rfl, rfl, hop⟩ | ⟨first, cause, hfirst, rfl⟩ :=
      awaited?_of_step hatt.orderly hs hw
    · obtain ⟨call, hc, hcall⟩ := h.waits c op finish hw
      exact ⟨call, hold hc, hcall⟩
    · refine ⟨call, ?_, .inl hop⟩
      cases hc : calls e.fresh with
      | none => exact called?_eq_some_iff.2 ⟨rfl, rfl⟩
      | some call' => exact absurd (h.numbered _ _ hc) (Nat.lt_irrefl _)
    · obtain ⟨call, hc, hcall⟩ := h.waits c first (.undo op cause) hfirst
      refine ⟨call, hold hc, .inr ⟨first, cause, ?_, rfl⟩⟩
      obtain hcall | ⟨_, _, -, hf⟩ := hcall
      · exact hcall
      · cases hf
  · obtain hc | ⟨-, hc⟩ := Option.or_eq_some_iff.1 hc
    · have hfate := Fate.step hs (h.numbered c call hc) (h.takesNothingBack hc hw)
      exact h.lasts c call w hc hw w' (hfate.waits w' hw').1
    · have hnew := (callers_of_called hatt.orderly hs hc).2 w hw
      exact Option.some.inj (hw'.symm.trans hnew)
  · obtain ⟨o₀, ho₀, he⟩ | he := ending_of_step hopens hs ho
    · rw [he]
      exact h.endings feed o₀ ho₀
    · exact he

end Assigned

end Engine

end UnitControl
