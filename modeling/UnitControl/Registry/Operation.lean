import UnitControl.Bus.MatchRule
import UnitControl.Registry

/-!
# Operations on the registry

An operation runs under one lock, also while it waits for the bus. It goes on until it needs a
match rule added or removed, and is then a pause that the answer of the bus resumes.
-/

namespace UnitControl

inductive MatchCall
  | add (unit : String)
  | remove (unit : String)
  deriving DecidableEq, Repr

namespace MatchCall

def unit : MatchCall → String
  | add unit | remove unit => unit

def rule (call : MatchCall) : MatchRule := .unit call.unit

end MatchCall

namespace Registry

inductive Operation
  | add (s : SetId) (unit : String)
  | remove (s : SetId) (unit : String)
  /-- Makes a feed the sink of a set, in place of the sink that the set had. -/
  | attach (s : SetId) (feed : FeedId)
  /-- Takes the sink from a set and lets the references of its members go. With `only`, nothing
  happens unless that is the sink; with `forget`, the members are dropped too. -/
  | detach (s : SetId) (only : Option FeedId) (forget : Bool)
  | subscribe (feed : FeedId) (unit : String)
  | unsubscribe (feed : FeedId)
  deriving DecidableEq, Repr

/-- What is left of an operation when the bus has answered. -/
inductive Pause
  | joining (s : SetId) (unit : String)
  | subscribing (feed : FeedId) (unit : String)
  /-- The members in `held` have their reference again, `unit` is asked for. -/
  | reattaching (s : SetId) (feed : FeedId) (held : List String) (unit : String)
      (rest : List String)
  /-- The first failure so far is the result of the operation. -/
  | releasing (failure : Option Error) (rest : List String)
  deriving DecidableEq, Repr

inductive Progress
  | done (result : Except Error Unit)
  | ask (call : MatchCall) (pause : Pause)

def outcome : Option Error → Except Error Unit
  | some e => .error e
  | none => .ok ()

/-- Lets the references on the units go, one after the other, whatever the bus has to say. -/
def releaseAll (r : Registry) (failure : Option Error) : List String → Registry × Progress
  | [] => (r, .done (outcome failure))
  | unit :: rest =>
    match r.letGo unit with
    | (r, true) => (r, .ask (.remove unit) (.releasing failure rest))
    | (r, false) => releaseAll r failure rest

/-- Takes the references on the remaining members, and then installs the sink. -/
def holdAll (r : Registry) (s : SetId) (feed : FeedId) (held : List String) :
    List String → Registry × Progress
  | [] => (r.install s feed, .done (.ok ()))
  | unit :: rest =>
    if r.count unit = 0 then (r, .ask (.add unit) (.reattaching s feed held unit rest))
    else holdAll (r.hold unit) s feed (held ++ [unit]) rest

/-- Whether a detachment is meant for the sink that the set has. -/
def isCurrent (x : UnitSet) (only : Option FeedId) : Bool :=
  only.isNone || decide (x.sink = only)

def begin (r : Registry) : Operation → Registry × Progress
  | .add s unit =>
    if unit ∈ (r.set s).members then (r, .done (.ok ()))
    else if (r.set s).attached then
      if r.count unit = 0 then (r, .ask (.add unit) (.joining s unit))
      else ((r.hold unit).join s unit, .done (.ok ()))
    else (r.join s unit, .done (.ok ()))
  | .remove s unit =>
    let x := r.set s
    if unit ∈ x.members then
      let r := r.putSet s (x.leave unit)
      if x.attached then r.releaseAll none [unit] else (r, .done (.ok ()))
    else (r, .done (.ok ()))
  | .attach s feed =>
    let x := r.set s
    if x.attached then (r.install s feed, .done (.ok ()))
    else (r.putSet s { x with sink := none }).holdAll s feed [] x.members
  | .detach s only forget =>
    match r.sets.get? s with
    | none => (r, .done (.ok ()))
    | some x =>
      if isCurrent x only then
        let r :=
          if forget then { r with sets := r.sets.erase s }
          else r.putSet s { x with attached := false, sink := none }
        r.releaseAll none (if x.attached then x.members else [])
      else (r, .done (.ok ()))
  | .subscribe feed unit =>
    if r.count unit = 0 then (r, .ask (.add unit) (.subscribing feed unit))
    else ((r.hold unit).addDirect feed unit, .done (.ok ()))
  | .unsubscribe feed =>
    match r.directs.get? feed with
    | none => (r, .done (.ok ()))
    | some unit => { r with directs := r.directs.erase feed }.releaseAll none [unit]

def resume (r : Registry) (answer : Except Error Unit) : Pause → Registry × Progress
  | .joining s unit =>
    match answer with
    | .ok _ => ((r.hold unit).join s unit, .done (.ok ()))
    | .error e => (r, .done (.error e))
  | .subscribing feed unit =>
    match answer with
    | .ok _ => ((r.hold unit).addDirect feed unit, .done (.ok ()))
    | .error e => (r, .done (.error e))
  | .reattaching s feed held unit rest =>
    match answer with
    | .ok _ => (r.hold unit).holdAll s feed (held ++ [unit]) rest
    | .error e => r.releaseAll (some e) held
  | .releasing failure rest =>
    match answer with
    | .ok _ => r.releaseAll failure rest
    | .error e => r.releaseAll (failure.or (some e)) rest

/-- `Completes p log r result`: with the bus answering its calls as in `log`, an operation that has
come to `p` ends with the registry `r` and with this result. -/
inductive Completes :
    Registry × Progress → List (MatchCall × Except Error Unit) → Registry →
      Except Error Unit → Prop
  | done {r : Registry} {result : Except Error Unit} : Completes (r, .done result) [] r result
  | ask {r r' : Registry} {call : MatchCall} {pause : Pause} {answer result : Except Error Unit}
      {log : List (MatchCall × Except Error Unit)} :
      Completes (r.resume answer pause) log r' result →
        Completes (r, .ask call pause) ((call, answer) :: log) r' result

/-- The feed that an operation closes as it begins. -/
def closes (r : Registry) : Operation → Option FeedId
  | .attach s _ => (r.set s).sink
  | .detach s only _ => if isCurrent (r.set s) only then (r.set s).sink else none
  | .unsubscribe feed => if r.directs.contains feed then some feed else none
  | .add .. | .remove .. | .subscribe .. => none

/-- The feed for which an operation is to find a place. -/
def Operation.newcomer? : Operation → Option FeedId
  | attach _ feed | subscribe feed _ => some feed
  | _ => none

end Registry

end UnitControl
