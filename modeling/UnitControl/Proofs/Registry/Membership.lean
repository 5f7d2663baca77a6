import UnitControl.Proofs.Registry.Sinks

/-!
# Which units are in which sets

An addition that succeeds makes a unit a member, and a removal takes it out as it begins. Apart from
these, and from closing a set, operations leave all sets with the members that they have, whatever
the bus has to say.
-/

namespace UnitControl.Registry

def membership (r : Registry) (s : SetId) (unit : String) : Bool := decide (unit ∈ r.members s)

namespace Operation

/-- The operations that change the members of a set, or are to. -/
def isChange : Operation → Bool
  | add .. | remove .. | detach _ none true => true
  | _ => false

/-- What the end of an operation, with success or not, tells of a unit in a set. -/
def verdict (ok : Bool) (s : SetId) (unit : String) : Operation → Option Bool
  | add t v => if ok = true ∧ t = s ∧ v = unit then some true else none
  | remove t v => if t = s ∧ v = unit then some false else none
  | detach t none true => if t = s then some false else none
  | _ => none

/-- The membership after an operation, if this is the membership before it. -/
def decides (op : Operation) (ok : Bool) (old : SetId → String → Bool) (s : SetId)
    (unit : String) : Bool :=
  (op.verdict ok s unit).getD (old s unit)

def IsAdd : Operation → Prop
  | add .. => True
  | _ => False

/-- A set is closed whatever its sink is. -/
def IsPlain : Operation → Prop
  | detach _ only forget => forget = true → only = none
  | _ => True

theorem verdict_of_not_isChange {op : Operation} (h : op.isChange = false) (ok : Bool) (s : SetId)
    (unit : String) : op.verdict ok s unit = none := by
  cases op with
  | add t v | remove t v => cases h
  | detach t only forget => cases only <;> cases forget <;> first | rfl | cases h
  | _ => rfl

theorem decides_of_not_isChange (op : Operation) (h : op.isChange = false) (ok : Bool)
    (old : SetId → String → Bool) : op.decides ok old = old := by
  funext s unit
  rw [decides, verdict_of_not_isChange h]
  rfl

@[simp] theorem decides_add_false (s : SetId) (unit : String) (old : SetId → String → Bool) :
    (add s unit).decides false old = old := by
  funext t v
  simp [decides, verdict]

theorem decides_of_not_isAdd {op : Operation} (h : ¬op.IsAdd) (ok ok' : Bool)
    (old : SetId → String → Bool) : op.decides ok old = op.decides ok' old := by
  funext s unit
  cases op with
  | add t v => exact absurd trivial h
  | detach t only forget => cases only <;> cases forget <;> rfl
  | _ => rfl

end Operation

/-- A pause in which an addition waits belongs to that addition, and any other pause to an operation
of another kind. -/
def Pause.Continues (op : Operation) : Pause → Prop
  | joining s unit => op = .add s unit
  | _ => ¬op.IsAdd

/-- An operation that has come to `p` leaves the members as it decides, which were `old` when it
began. -/
def Follows (op : Operation) (old : SetId → String → Bool) (p : Registry × Progress) : Prop :=
  match p.2 with
  | .done result => p.1.membership = op.decides result.isOk old
  | .ask _ pause => p.1.membership = op.decides false old ∧ pause.Continues op

variable {r r' : Registry} {op : Operation} {old : SetId → String → Bool}

theorem membership_iff {s : SetId} {unit : String} :
    r.membership s unit = true ↔ unit ∈ (r.set s).members := decide_eq_true_iff

theorem membership_of_set (h : ∀ s, (r'.set s).members = (r.set s).members) :
    r'.membership = r.membership := by
  funext s unit
  rw [Bool.eq_iff_iff, membership_iff, membership_iff, h]

theorem membership_of_sets (h : r'.sets = r.sets) : r'.membership = r.membership :=
  membership_of_set fun s => by rw [set, set, h]

theorem membership_putSet_of_members {s : SetId} {x : UnitSet} (h : x.members = (r.set s).members) :
    (r.putSet s x).membership = r.membership := by
  refine membership_of_set fun t => ?_
  rw [set_putSet]
  split
  · rename_i ht
    rw [h, ht]
  · rfl

theorem membership_join (r : Registry) (s : SetId) (unit : String) :
    (r.join s unit).membership = (Operation.add s unit).decides true r.membership := by
  funext t v
  rw [Bool.eq_iff_iff, membership_iff, join, set_putSet, Operation.decides, Operation.verdict]
  by_cases ht : t = s
  · subst ht
    by_cases hv : v = unit
    · simp [UnitSet.mem_members_join, hv]
    · simp [UnitSet.mem_members_join, hv, Ne.symm hv, membership_iff]
  · simp [ht, Ne.symm ht, membership_iff]

theorem membership_holdAll (s : SetId) (feed : FeedId) (held rest : List String) :
    (r.holdAll s feed held rest).1.membership = r.membership := by
  induction rest generalizing r held with
  | nil => exact membership_putSet_of_members rfl
  | cons unit rest ih =>
    unfold holdAll
    split
    · rfl
    · exact (ih (r := r.hold unit) _).trans (membership_of_sets rfl)

theorem follows_releaseAll (hop : ¬op.IsAdd) (h : r.membership = op.decides false old)
    (failure : Option Error) (units : List String) :
    Follows op old (r.releaseAll failure units) := by
  induction units generalizing r with
  | nil => exact h.trans (op.decides_of_not_isAdd hop _ _ _)
  | cons unit rest ih =>
    have hsets := membership_of_sets (sets_letGo r unit)
    unfold releaseAll
    cases hl : r.letGo unit with
    | mk r₁ last =>
      rw [hl] at hsets
      cases last with
      | false => exact ih (hsets.trans h)
      | true => exact ⟨hsets.trans h, hop⟩

theorem follows_holdAll (hop : ¬op.IsAdd) (h : r.membership = op.decides false old) (s : SetId)
    (feed : FeedId) (held rest : List String) : Follows op old (r.holdAll s feed held rest) := by
  induction rest generalizing r held with
  | nil =>
    refine (membership_holdAll s feed held []).trans (h.trans ?_)
    exact op.decides_of_not_isAdd hop _ _ _
  | cons unit rest ih =>
    unfold holdAll
    split
    · exact ⟨h, hop⟩
    · exact ih (r := r.hold unit) ((membership_of_sets rfl).trans h) _

theorem membership_dues_remove (r : Registry) (s : SetId) (unit : String) :
    (r.dues (.remove s unit)).1.membership =
      (Operation.remove s unit).decides false r.membership := by
  funext t v
  simp only [dues, Operation.decides, Operation.verdict]
  rw [Bool.eq_iff_iff, membership_iff]
  by_cases htv : s = t ∧ unit = v
  · obtain ⟨rfl, rfl⟩ := htv
    by_cases hm : unit ∈ (r.set s).members
    · simp [hm, set_putSet, UnitSet.mem_members_leave]
    · simp [hm]
  · rw [if_neg htv, Option.getD_none, membership_iff]
    by_cases hm : unit ∈ (r.set s).members
    · rw [if_pos hm, set_putSet]
      split
      · rename_i ht
        have hv : v ≠ unit := fun hv => htv ⟨ht.symm, hv.symm⟩
        simp [UnitSet.mem_members_leave, hv, ht]
      · rfl
    · rw [if_neg hm]

theorem membership_dues_detach (r : Registry) (s : SetId) {only : Option FeedId} {forget : Bool}
    (h : (Operation.detach s only forget).IsPlain) :
    (r.dues (.detach s only forget)).1.membership =
      (Operation.detach s only forget).decides false r.membership := by
  cases forget with
  | true =>
    obtain rfl : only = none := h rfl
    have hset : ∀ t, ((r.dues (.detach s none true)).1.set t).members =
        if t = s then [] else (r.set t).members := by
      intro t
      simp only [dues]
      cases hs : r.sets.get? s with
      | none =>
        by_cases ht : t = s
        · simp [ht, set, hs, UnitSet.new]
        · simp [ht]
      | some x =>
        refine (congrArg UnitSet.members (set_eraseSet r s t)).trans ?_
        split <;> rfl
    funext t v
    simp only [Operation.decides, Operation.verdict]
    rw [Bool.eq_iff_iff, membership_iff, hset]
    by_cases ht : t = s
    · simp [ht]
    · simp [ht, Ne.symm ht, membership_iff]
  | false =>
    have hn : (Operation.detach s only false).isChange = false := by cases only <;> rfl
    rw [Operation.decides_of_not_isChange _ hn]
    refine membership_of_set fun t => ?_
    simp only [dues]
    cases hs : r.sets.get? s with
    | none => rfl
    | some x =>
      dsimp only
      split
      · rw [if_neg Bool.false_ne_true, set_putSet]
        split
        · rename_i ht
          simp [ht, set, hs]
        · rfl
      · rfl

theorem follows_begin (h : op.IsPlain) (r : Registry) : Follows op r.membership (r.begin op) := by
  have hsame {r' : Registry} (hn : op.isChange = false) (hr : r'.membership = r.membership)
      (ok : Bool) : r'.membership = op.decides ok r.membership :=
    hr.trans (op.decides_of_not_isChange hn ok _).symm
  cases op with
  | add s unit =>
    have hask : r.membership = (Operation.add s unit).decides false r.membership := by simp
    simp only [begin]
    split
    · rename_i hm
      funext t v
      simp only [Operation.decides, Operation.verdict, Except.isOk, Except.toBool, true_and]
      split
      · rename_i htv
        obtain ⟨rfl, rfl⟩ := htv
        exact decide_eq_true hm
      · rfl
    · split
      · split
        · exact ⟨hask, rfl⟩
        · exact membership_join (r.hold unit) s unit
      · exact membership_join r s unit
  | remove s unit =>
    rw [begin_remove]
    exact follows_releaseAll id (membership_dues_remove r s unit) _ _
  | attach s feed =>
    simp only [begin]
    split
    · have hr : (r.install s feed).membership = r.membership := membership_putSet_of_members rfl
      exact hsame rfl hr _
    · let x : UnitSet := { r.set s with sink := none }
      have hx : (r.putSet s x).membership = r.membership := membership_putSet_of_members rfl
      exact follows_holdAll id (hsame rfl hx _) _ _ _ _
  | detach s only forget =>
    rw [begin_detach]
    exact follows_releaseAll id (membership_dues_detach r s h) _ _
  | subscribe feed unit =>
    simp only [begin]
    split
    · exact ⟨hsame rfl rfl _, id⟩
    · exact hsame rfl (membership_of_sets rfl) _
  | unsubscribe feed =>
    rw [begin_unsubscribe]
    refine follows_releaseAll id (hsame rfl (membership_of_sets ?_) _) _ _
    simp only [dues]
    split <;> rfl

theorem follows_resume {pause : Pause} (h : r.membership = op.decides false old)
    (hp : pause.Continues op) (answer : Except Error Unit) :
    Follows op old (r.resume answer pause) := by
  cases pause with
  | joining s unit =>
    cases hp
    have hold : r.membership = old := h.trans (Operation.decides_add_false s unit old)
    cases answer with
    | ok _ => exact hold ▸ membership_join (r.hold unit) s unit
    | error err => exact h
  | subscribing feed unit =>
    cases answer with
    | ok _ =>
      exact ((membership_of_sets rfl).trans h).trans (op.decides_of_not_isAdd hp _ _ _)
    | error err => exact h
  | reattaching s feed held unit rest =>
    cases answer with
    | ok _ =>
      exact follows_holdAll (r := r.hold unit) hp ((membership_of_sets rfl).trans h) _ _ _ _
    | error err => exact follows_releaseAll hp h _ _
  | releasing failure rest =>
    cases answer with
    | ok _ => exact follows_releaseAll hp h _ _
    | error err => exact follows_releaseAll hp h _ _

/-- When an operation is over, its result decides. -/
theorem Follows.completes {p : Registry × Progress} {log : List (MatchCall × Except Error Unit)}
    {result : Except Error Unit} (h : Follows op old p) (hc : Completes p log r' result) :
    r'.membership = op.decides result.isOk old := by
  induction hc with
  | done => exact h
  | ask _ ih => exact ih (follows_resume h.1 h.2 _)

end UnitControl.Registry
