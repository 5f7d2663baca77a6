import UnitControl.Proofs.Engine.Sidelines
import UnitControl.Proofs.Feed

/-!
# What becomes of an outlet

An outlet stays for good, and so does its ending. Whatever lasts on a feed lasts there.
-/

namespace UnitControl.Engine

variable {e e' : Engine} {event : Event} {feed : FeedId} {o : Outlet} {P : Feed Update → Prop}

/-- The outlet is still there, with its ending, and its feed has kept what it had. -/
def Stays (e' : Engine) (P : Feed Update → Prop) (feed : FeedId) (o : Outlet) : Prop :=
  ∃ o', e'.outlets.get? feed = some o' ∧ o'.ending = o.ending ∧ (P o.feed → P o'.feed)

theorem PassesBy.stays {new : FeedId} (h : PassesBy new e e') (hP : Feed.Lasting P)
    (hf : feed ≠ new) (ho : e.outlets.get? feed = some o) : e'.Stays P feed o := by
  obtain ⟨o', ho', he, hfeed⟩ := h.feeds feed o hf ho
  refine ⟨o', ho', he, fun hp => ?_⟩
  rcases hfeed with hfeed | hfeed <;> rw [hfeed]
  · exact hp
  · exact hP.close _ hp

theorem stays_of_eq (ho : e.outlets.get? feed = some o) (h : e'.outlets = e.outlets) :
    e'.Stays P feed o := ⟨o, h ▸ ho, rfl, id⟩

theorem stays_of_put (ho : e.outlets.get? feed = some o) {g : FeedId} {og : Outlet}
    (hg : e.outlets.get? g = some og) {f : Feed Update} (hf : P og.feed → P f)
    (h : e'.outlets = e.outlets.put g { og with feed := f }) : e'.Stays P feed o := by
  unfold Stays
  rw [h, Table.get?_put]
  split
  · rename_i hfg
    cases Option.some.inj (ho.symm.trans (hfg ▸ hg))
    exact ⟨_, rfl, rfl, hf⟩
  · exact ⟨o, ho, rfl, id⟩

theorem stays_onFeed (ho : e.outlets.get? feed = some o) {g : FeedId} {lane : Lane}
    {f : Feed Update → Option (Feed Update)} (h : e.onFeed? g lane f = some e')
    (hf : ∀ x x', f x = some x' → P x → P x') : e'.Stays P feed o := by
  unfold onFeed? at h
  split at h
  · rename_i og hg
    obtain ⟨x, hx, rfl⟩ := Option.map_eq_some_iff.1 h
    exact stays_of_put ho hg (hf _ _ hx) rfl
  · cases h

theorem stays_deliver (hP : Feed.Lasting P) (ho : e.outlets.get? feed = some o)
    (parcel : Parcel Update) (targets : List FeedId) :
    (e.deliver parcel targets).Stays P feed o := by
  cases targets with
  | nil => exact stays_of_eq ho rfl
  | cons g rest =>
    simp only [deliver]
    split
    · exact stays_of_eq ho rfl
    · rename_i og hg
      split
      · rename_i ha
        exact stays_of_put (e := e) ho hg (fun hp => hP.send _ _ hp ha) rfl
      · exact stays_of_eq ho rfl

theorem stays_of_reaction (hP : Feed.Lasting P) (h : e.Reaction event e') (hlt : feed < e.fresh)
    (ho : e.outlets.get? feed = some o) : e'.Stays P feed o := by
  cases ha : event.isAside with
  | true => exact (passesBy_of_reaction h ha).stays hP (Nat.ne_of_lt hlt) ho
  | false =>
    cases h with
    | takeFeed h => exact stays_onFeed ho h fun x x' ht hp => hP.take x _ x' hp ht
    | hangUpFeed h =>
      refine stays_onFeed ho h fun x x' hx hp => ?_
      cases hx
      exact hP.hangUp x _ hp
    | jobReturned hs hr => exact stays_of_eq ho (outlets_dispatch _ _)
    | @grant task hh hq =>
      cases task with
      | dispatcher =>
        refine stays_of_eq ho ?_
        simp only [enter]
        split <;> rfl
      | _ => cases ha
    | takeCommand hr =>
      exact stays_of_eq ho ((outlets_noteCall _).trans (outlets_dispatch _ _))
    | takeSignal hi hr =>
      exact stays_of_eq ho ((outlets_askTargets _).trans (outlets_dispatch _ _))
    | deliver hs => exact stays_deliver hP ho _ _
    | look h =>
      unfold look? at h
      split at h <;> cases h
      exact stays_of_eq ho rfl
    | unblock h =>
      unfold unblock? at h
      split at h
      · split at h <;> cases h
        exact stays_of_eq ho rfl
      · cases h
    | stop h => exact stays_of_eq ho (outlets_dispatch _ _)
    | _ => cases ha

theorem stays_of_step (hP : Feed.Lasting P) (h : e.step event = some e') (hlt : feed < e.fresh)
    (ho : e.outlets.get? feed = some o) : e'.Stays P feed o :=
  of_step h (fun _ hr => stays_of_reaction hP hr hlt ho) fun _ => id

theorem stays_of_run (hP : Feed.Lasting P) {events : List Event} (h : e.run events = some e')
    (hlt : feed < e.fresh) (ho : e.outlets.get? feed = some o) : e'.Stays P feed o := by
  induction events generalizing e o with
  | nil =>
    cases h
    exact stays_of_eq ho rfl
  | cons event rest ih =>
    obtain ⟨e₁, hs, hr⟩ := Option.bind_eq_some_iff.1 h
    obtain ⟨o₁, ho₁, he₁, hp₁⟩ := stays_of_step hP hs hlt ho
    obtain ⟨o', ho', he, hp⟩ := ih hr (Nat.lt_of_lt_of_le hlt (fresh_le_of_step hs)) ho₁
    exact ⟨o', ho', he.trans he₁, hp ∘ hp₁⟩

end UnitControl.Engine
